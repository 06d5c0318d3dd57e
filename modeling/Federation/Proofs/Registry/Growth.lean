import Federation.Proofs.Survey.Look

/-!
# How the entry of a type grows

What a sighting makes of the entry of its type depends on that entry and on the setting, and on nothing else that a
survey knows. Here it is said as functions of entries, and the survey is shown to follow them.
-/

namespace Federation

open Schema

namespace Intake

/-! ## What a host keeps -/

/-- The directives that a host has after a declaration of it, given those that it had before. -/
def kept (setting : Setting) (location : Location) (hostPath : String) (before : AppliedDirectives)
    (applied : List Directive) : AppliedDirectives :=
  (run setting location hostPath before .empty applied).accepted

/-- An application that a host with these directives would find in order. -/
def Admits (setting : Setting) (location : Location) (accepted : AppliedDirectives) (d : Directive) : Prop :=
  ∃ definition, setting.directive? d.name = some definition ∧ location ∈ definition.locations ∧
    DirectiveConformance.argumentFaults d definition = [] ∧
    (definition.isRepeatable = false → accepted.contains d.name = false)

theorem valid_iff_admits {setting : Setting} {location : Location} {accepted : AppliedDirectives} {d : Directive}
    (hostPath : String) (repeats : Repeats) :
    (judge setting location hostPath accepted repeats d).1 = .valid ↔ Admits setting location accepted d := by
  refine ⟨allows_of_valid, ?_⟩
  rintro ⟨definition, defined, placed, sound, new⟩
  have once : (definition.isRepeatable || !accepted.contains d.name) = true := by
    cases repeatable : definition.isRepeatable with
    | true => rfl
    | false => simp [new repeatable]
  simp [judge, defined, placed, sound, once]

/-- An application that is in order is kept or set aside, unless it takes a field over from its own subgraph. -/
theorem step_of_admits {setting : Setting} {location : Location} {i : Intake} {d : Directive}
    (admitted : Admits setting location i.accepted d) (hostPath : String) :
    (step setting location hostPath i d).accepted =
        (if overridesItself setting d || isSetAside location i.accepted d then i.accepted else i.accepted.add d) ∧
      (step setting location hostPath i d).setAside =
        if !overridesItself setting d && isSetAside location i.accepted d then i.setAside ++ [d] else i.setAside := by
  have valid := (valid_iff_admits hostPath i.repeats).mpr admitted
  unfold step
  generalize judge setting location hostPath i.accepted i.repeats d = judged at valid ⊢
  obtain ⟨verdict, repeats⟩ := judged
  obtain rfl : verdict = .valid := valid
  dsimp only
  cases overridesItself setting d <;> cases isSetAside location i.accepted d <;> exact ⟨rfl, rfl⟩

theorem step_of_not_admits {setting : Setting} {location : Location} {i : Intake} {d : Directive}
    (refused : ¬ Admits setting location i.accepted d) (hostPath : String) :
    (step setting location hostPath i d).accepted = i.accepted ∧
      (step setting location hostPath i d).setAside = i.setAside := by
  have invalid := mt (valid_iff_admits hostPath i.repeats).mp refused
  unfold step
  generalize judge setting location hostPath i.accepted i.repeats d = judged at invalid ⊢
  obtain ⟨verdict, repeats⟩ := judged
  cases verdict with
  | valid => exact absurd rfl invalid
  | ignored | refused => exact ⟨rfl, rfl⟩

/-- Two intakes that may differ in what they reported and in the repetitions that they noted. -/
structure Alike (i i' : Intake) : Prop where
  accepted : i.accepted = i'.accepted
  setAside : i.setAside = i'.setAside

/-- What is reported of repetitions does not count in what is kept. -/
theorem Alike.step {i i' : Intake} (alike : i.Alike i') (setting : Setting) (location : Location) (hostPath : String)
    (d : Directive) : (step setting location hostPath i d).Alike (step setting location hostPath i' d) := by
  by_cases admitted : Admits setting location i.accepted d
  · have first := step_of_admits admitted hostPath
    have second := step_of_admits (alike.accepted ▸ admitted) hostPath
    exact ⟨by rw [first.1, second.1, alike.accepted], by rw [first.2, second.2, alike.accepted, alike.setAside]⟩
  · have first := step_of_not_admits admitted hostPath
    have second := step_of_not_admits (alike.accepted ▸ admitted) hostPath
    exact ⟨by rw [first.1, second.1, alike.accepted], by rw [first.2, second.2, alike.setAside]⟩

theorem Alike.foldl {i i' : Intake} (alike : i.Alike i') (setting : Setting) (location : Location) (hostPath : String)
    (applied : List Directive) :
    (applied.foldl (Intake.step setting location hostPath) i).Alike
      (applied.foldl (Intake.step setting location hostPath) i') := by
  induction applied generalizing i i' with
  | nil => exact alike
  | cons d rest ih => exact ih (alike.step setting location hostPath d)

theorem alike_run (setting : Setting) (location : Location) (hostPath : String) (before : AppliedDirectives)
    (repeats repeats' : Repeats) (applied : List Directive) :
    (run setting location hostPath before repeats applied).Alike
      (run setting location hostPath before repeats' applied) :=
  have start : Alike ⟨before, [], repeats, []⟩ ⟨before, [], repeats', []⟩ := ⟨rfl, rfl⟩
  start.foldl setting location hostPath applied

theorem accepted_run (setting : Setting) (location : Location) (hostPath : String) (before : AppliedDirectives)
    (repeats : Repeats) (applied : List Directive) :
    (run setting location hostPath before repeats applied).accepted = kept setting location hostPath before applied :=
  (alike_run setting location hostPath before repeats .empty applied).accepted

end Intake

/-! ## What a sighting adds -/

/-- An argument or a field of an input object that is declared for the first time. -/
def InputValue.declared (setting : Setting) (location : Location) (hostPath : String) (v : InputValueDefinition) :
    InputValue where
  type := v.type
  default? := v.default?
  directives := Intake.kept setting location hostPath .empty v.directives
  description := v.description

namespace Field

/-- Arguments join those of earlier declarations. -/
def joinArgument (setting : Setting) (parent field : String) (arguments : Table String InputValue)
    (a : InputValueDefinition) : Table String InputValue :=
  if arguments.contains a.name then arguments
  else
    arguments.insert a.name
      (.declared setting .argumentDefinition s!"{parent}.{field}({a.name}: ...)" a)

/-- A field after one more declaration. -/
def declared (setting : Setting) (parent : String) (isParentExternal : Bool) (existing? : Option Field)
    (f : FieldDefinition) : Field :=
  let directives := Intake.kept setting .fieldDefinition (coordinates parent f.name)
    ((existing?.map Field.directives).getD .empty) f.directives
  let arguments := f.arguments.foldl (joinArgument setting parent f.name)
    ((existing?.map Field.arguments).getD .empty)
  let isExternal := isParentExternal || directives.contains Vocabulary.external
  match existing? with
  | some old => { old with directives, arguments, isExternal := old.isExternal || isExternal }
  | none => { type := f.type, arguments, directives, description := f.description, isExternal }

end Field

namespace TypeEntry

def withField (setting : Setting) (parent : String) (isExtension : Bool) (entry : TypeEntry) (f : FieldDefinition) :
    TypeEntry :=
  match entry.composite? with
  | none => entry
  | some composite =>
    let existing? := composite.fields.get? f.name
    if (setting.operation? entry.kind parent).isSome && Survey.isReservedField f.name then entry
    else if existing?.isSome && !isExtension then entry
    else
      let field := Field.declared setting parent (entry.directives.contains Vocabulary.external) existing? f
      { entry with
        shape := entry.shape.mapComposite fun c => { c with fields := c.fields.insert f.name field } }

def withEnumValue (setting : Setting) (parent : String) (isExtension : Bool) (entry : TypeEntry)
    (v : EnumValueDefinition) : TypeEntry :=
  match entry.shape with
  | .enum values =>
    let existing? := values.get? v.name
    if existing?.isSome && !isExtension then entry
    else
      let value : EnumValue :=
        { description := match existing? with
            | some old => old.description
            | none => v.description
          directives := Intake.kept setting .enumValue (coordinates parent v.name)
            ((existing?.map EnumValue.directives).getD .empty) v.directives }
      { entry with shape := .enum (values.insert v.name value) }
  | _ => entry

def withInputValue (setting : Setting) (parent : String) (isExtension : Bool) (entry : TypeEntry)
    (v : InputValueDefinition) : TypeEntry :=
  match entry.shape with
  | .inputObject fields =>
    let existing? := fields.get? v.name
    if existing?.isSome && !isExtension then entry
    else
      let value : InputValue := match existing? with
        | some old =>
          { old with
            directives := Intake.kept setting .inputFieldDefinition (coordinates parent v.name) old.directives
              v.directives }
        | none => .declared setting .inputFieldDefinition (coordinates parent v.name) v
      { entry with shape := .inputObject (fields.insert v.name value) }
  | _ => entry

/-- An entry after what stands inside a sighting of its type. -/
def withChildren (setting : Setting) (isExtension : Bool) (t : TypeDefinition) (entry : TypeEntry) : TypeEntry :=
  match t.body with
  | .enum values => values.foldl (withEnumValue setting t.name isExtension) entry
  | .inputObject fields => fields.foldl (withInputValue setting t.name isExtension) entry
  | .interface _ fields | .object _ fields => fields.foldl (withField setting t.name isExtension) entry
  | .scalar | .union _ => entry

/-- What is taken in of the directives on a sighting. -/
def intake (setting : Setting) (t : TypeDefinition) (old? : Option TypeEntry) : Intake :=
  Intake.run setting t.kind.location t.name ((old?.map TypeEntry.directives).getD .empty) .empty t.directives

/-- An entry after what a sighting of its type says of the type as a whole. -/
def joined (setting : Setting) (isExtension : Bool) (t : TypeDefinition) (old? : Option TypeEntry) : TypeEntry :=
  let intake := intake setting t old?
  let entry := sighted old? t.kind t.description intake.accepted (Survey.extensionOf setting isExtension t intake)
  { entry with shape := entry.shape.list t.body.listedNames }

end TypeEntry

/-! ## The survey follows -/

namespace Survey

variable (setting : Setting) (s : Survey)

theorem arguments_sightArguments (kind : TypeKind) (parent field : String) (arguments : List InputValueDefinition)
    (acc : Table String InputValue × Survey) :
    (arguments.foldl (sightArgument setting kind parent field) acc).1 =
      arguments.foldl (Field.joinArgument setting parent field) acc.1 := by
  induction arguments generalizing acc with
  | nil => rfl
  | cons a rest ih =>
    rw [List.foldl_cons, ih, List.foldl_cons]
    congr 1
    unfold sightArgument Field.joinArgument
    dsimp only
    split
    · rfl
    · dsimp only [takeIn]
      rw [Intake.accepted_run]
      rfl

namespace FieldMerge

variable (m : FieldMerge)

theorem applied_eq : m.applied = Intake.kept m.setting .fieldDefinition (coordinates m.parent m.declaration.name)
    ((m.existing?.map Field.directives).getD .empty) m.declaration.directives :=
  Intake.accepted_run ..

theorem arguments_eq : m.argued.1 = m.declaration.arguments.foldl
    (Field.joinArgument m.setting m.parent m.declaration.name) ((m.existing?.map Field.arguments).getD .empty) :=
  arguments_sightArguments ..

theorem field_eq : m.field =
    .declared m.setting m.parent (m.entry.directives.contains Vocabulary.external) m.existing? m.declaration := by
  cases declared : m.existing? <;>
    simp only [field, isExternal, Field.declared, m.applied_eq, m.arguments_eq, declared]

end FieldMerge

theorem types_mergeField (parent : String) (entry : TypeEntry) (existing? : Option Field) (f : FieldDefinition) :
    (s.mergeField setting parent entry existing? f).types =
      (s.reshape parent <| .mapComposite fun c =>
        { c with
          fields := c.fields.insert f.name
            (.declared setting parent (entry.directives.contains Vocabulary.external) existing? f) }).types := by
  rw [← FieldMerge.after_eq ⟨setting, parent, entry, existing?, f, s⟩]
  simp only [FieldMerge.after, reshape, FieldMerge.types_bound, FieldMerge.field_eq]

/-- What a change of one entry does, as seen from all names. -/
def Changes (parent : String) (f : TypeEntry → TypeEntry) (s s' : Survey) : Prop :=
  ∀ name, s'.types.get? name = if name = parent then (s.types.get? name).map f else s.types.get? name

variable {s} in
theorem changes_of_same {s' : Survey} {parent : String} {f : TypeEntry → TypeEntry} (same : s'.types = s.types)
    (still : ∀ entry, s.types.get? parent = some entry → f entry = entry) : Changes parent f s s' := by
  intro name
  rw [same]
  split
  · next here =>
    subst here
    cases found : s.types.get? name with
    | none => rfl
    | some entry => exact congrArg some (still entry found).symm
  · rfl

variable {s} in
theorem changes_of_found {s' : Survey} {parent : String} {entry : TypeEntry} {f : TypeEntry → TypeEntry}
    (found : s.types.get? parent = some entry) (same : s'.types = s.types) (still : f entry = entry) :
    Changes parent f s s' := by
  refine changes_of_same same fun entry' found' => ?_
  obtain rfl := Option.some.inj (found.symm.trans found')
  exact still

variable {s} in
theorem changes_of_reshape {taken s' : Survey} {parent : String} {entry : TypeEntry} {f : TypeEntry → TypeEntry}
    {g : Shape → Shape} (found : s.types.get? parent = some entry) (before : taken.types = s.types)
    (same : f entry = { entry with shape := g entry.shape }) (types : s'.types = (taken.reshape parent g).types) :
    Changes parent f s s' := by
  intro name
  rw [types, reshape, before, Table.get?_adjust]
  split
  · next here =>
    subst here
    simp [found, same]
  · rfl

theorem changes_foldl {α : Type} {parent : String} {step : Survey → α → Survey} {grow : TypeEntry → α → TypeEntry}
    (one : ∀ s x, Changes parent (grow · x) s (step s x)) (xs : List α) (s : Survey) :
    Changes parent (fun entry => xs.foldl grow entry) s (xs.foldl step s) := by
  induction xs generalizing s with
  | nil => exact changes_of_same rfl fun _ _ => rfl
  | cons x rest ih =>
    intro name
    rw [List.foldl_cons, ih, one]
    split
    · rw [Option.map_map]
      rfl
    · rfl

theorem changes_sightField (parent : String) (isExtension : Bool) (f : FieldDefinition) :
    Changes parent (TypeEntry.withField setting parent isExtension · f) s
      (s.sightField setting parent isExtension f) := by
  unfold sightField
  -- The entry decides, in the order of the look: no type, no fields, a served field, a second one, a new one.
  cases found : s.types.get? parent with
  | none => exact changes_of_same rfl (by simp [found])
  | some entry =>
    dsimp only
    cases composite : entry.composite? with
    | none => exact changes_of_found found rfl (by simp only [TypeEntry.withField, composite])
    | some c =>
      dsimp only
      split
      · next served =>
        exact changes_of_found found rfl (by simp only [TypeEntry.withField, composite, if_pos served])
      · next unserved =>
        split
        · next again =>
          refine changes_of_found found rfl ?_
          simp only [TypeEntry.withField, composite, if_neg unserved, if_pos again]
        · next new =>
          refine changes_of_reshape found rfl ?_ (types_mergeField setting s parent entry _ f)
          simp only [TypeEntry.withField, composite, if_neg unserved, if_neg new]

theorem changes_sightEnumValue (parent : String) (isExtension : Bool) (v : EnumValueDefinition) :
    Changes parent (TypeEntry.withEnumValue setting parent isExtension · v) s
      (s.sightEnumValue setting parent isExtension v) := by
  unfold sightEnumValue
  cases found : s.types.get? parent with
  | none => exact changes_of_same rfl (by simp [found])
  | some entry =>
    obtain ⟨_, _, _, _, shape⟩ := entry
    cases shape with
    | enum values =>
      simp only [Option.map_some]
      split
      · next again => exact changes_of_found found rfl (by simp only [TypeEntry.withEnumValue, if_pos again])
      · next new =>
        refine changes_of_reshape found ?_ ?_ rfl
        · rfl
        · simp only [TypeEntry.withEnumValue, if_neg new]
          cases values.get? v.name <;> simp only [takeIn, Intake.accepted_run]
    | inputObject | interface | object | scalar | union =>
      exact changes_of_found found rfl rfl

theorem changes_sightInputValue (parent : String) (isExtension : Bool) (v : InputValueDefinition) :
    Changes parent (TypeEntry.withInputValue setting parent isExtension · v) s
      (s.sightInputValue setting parent isExtension v) := by
  unfold sightInputValue
  cases found : s.types.get? parent with
  | none => exact changes_of_same rfl (by simp [found])
  | some entry =>
    obtain ⟨_, _, _, _, shape⟩ := entry
    cases shape with
    | inputObject fields =>
      simp only [Option.map_some]
      split
      · next again => exact changes_of_found found rfl (by simp only [TypeEntry.withInputValue, if_pos again])
      · next new =>
        refine changes_of_reshape found ?_ ?_ rfl
        · rfl
        · simp only [TypeEntry.withInputValue, if_neg new]
          cases fields.get? v.name <;> simp only [takeIn, Intake.accepted_run] <;> rfl
    | enum | interface | object | scalar | union =>
      exact changes_of_found found rfl rfl

/-- What stands inside a sighting changes the entry of its type only. -/
theorem changes_sightChildren (isExtension : Bool) (t : TypeDefinition) :
    Changes t.name (TypeEntry.withChildren setting isExtension t) s (s.sightChildren setting isExtension t) := by
  unfold sightChildren TypeEntry.withChildren
  cases t.body with
  | enum values => exact changes_foldl (fun s v => changes_sightEnumValue setting s t.name isExtension v) values s
  | inputObject fields =>
    exact changes_foldl (fun s v => changes_sightInputValue setting s t.name isExtension v) fields s
  | interface _ fields | object _ fields =>
    exact changes_foldl (fun s f => changes_sightField setting s t.name isExtension f) fields s
  | scalar | union => exact changes_of_same rfl fun _ _ => rfl

theorem alike_takeInType (t : TypeDefinition) (old? : Option TypeEntry) :
    (s.takeInType setting t old?).1.Alike (TypeEntry.intake setting t old?) := by
  rw [intake_takeInType]
  exact Intake.alike_run ..

theorem TypeMerge.entry_eq (m : TypeMerge) : m.entry = .joined m.setting m.isExtension m.type m.old? := by
  have alike := alike_takeInType m.setting m.noted m.type m.old?
  have accepted : m.taken.1.accepted = _ := alike.accepted
  have extension : m.extension =
      extensionOf m.setting m.isExtension m.type (TypeEntry.intake m.setting m.type m.old?) := by
    have setAside : m.taken.1.setAside = _ := alike.setAside
    unfold extension extensionOf Intake.hasExtends
    rw [setAside]
  unfold entry TypeEntry.joined
  rw [extension, accepted]

/-- Merging a sighting replaces the entry of its type. -/
theorem types_merge (isExtension : Bool) (t : TypeDefinition) : (s.merge setting isExtension t).types =
    s.types.insert t.name (.joined setting isExtension t (s.types.get? t.name)) := by
  rw [← TypeMerge.after_eq ⟨setting, isExtension, t, s⟩, TypeMerge.types_after, TypeMerge.entry_eq]
  rfl

end Survey

/-! ## Sighting by sighting -/

/-- A definition or an extension of a type. -/
structure Sighting where
  isExtension : Bool
  type : TypeDefinition

/-- What a statement says of the type with this name. Of the types that a federation adds by itself nothing is said. -/
def Schema.Statement.sighting? (typeName : String) : Statement → Option Sighting
  | .define (.type t) => if t.name = typeName && !Survey.isReservedType t then some ⟨false, t⟩ else none
  | .extendType t => if t.name = typeName && !Survey.isReservedType t then some ⟨true, t⟩ else none
  | .define (.directive _) | .define (.schema _) | .extendSchema _ => none

/-- The sightings of a type in their order. -/
def Sighting.all (statements : List Statement) (typeName : String) : List Sighting :=
  statements.filterMap (Statement.sighting? typeName)

namespace TypeEntry

/-- The entry of a type after one more sighting. One of another kind changes nothing. -/
def grown (setting : Setting) (old? : Option TypeEntry) (x : Sighting) : Option TypeEntry :=
  if (old?.map TypeEntry.kind).all (· = x.type.kind) then
    some ((joined setting x.isExtension x.type old?).withChildren setting x.isExtension x.type)
  else old?

/-- The entry of a type that is sighted in this way. -/
def ofSightings (setting : Setting) (xs : List Sighting) : Option TypeEntry := xs.foldl (grown setting) none

end TypeEntry

namespace Survey

variable (setting : Setting) (s : Survey)

theorem get?_sightType (isExtension : Bool) (t : TypeDefinition) (name : String) :
    (s.sightType setting isExtension t).types.get? name =
      if t.name = name && !isReservedType t then TypeEntry.grown setting (s.types.get? name) ⟨isExtension, t⟩
      else s.types.get? name := by
  -- Neither the merge nor what is declared inside the type writes to any other entry.
  have merged : ((s.merge setting isExtension t).sightChildren setting isExtension t).types.get? name =
      if t.name = name then
        some ((TypeEntry.joined setting isExtension t (s.types.get? name)).withChildren setting isExtension t)
      else s.types.get? name := by
    rw [changes_sightChildren, types_merge, Table.get?_insert]
    by_cases here : name = t.name
    · subst here
      simp
    · simp [here, Ne.symm here]
  unfold sightType TypeEntry.grown Registry.kind?
  cases reserved : isReservedType t with
  | true => simp
  | false =>
    by_cases here : t.name = name
    · subst here
      cases found : s.types.get? t.name with
      | none => simp [merged, found]
      | some old =>
        by_cases same : old.kind = t.kind
        · simp [merged, found, same]
        · simp [found, same, report]
    · simp only [Bool.false_eq_true, if_false, here, decide_false, Bool.false_and]
      split
      · rw [merged, if_neg here]
      · split
        · rw [merged, if_neg here]
        · rfl

/-- A statement changes the entries of types that it is a sighting of, and no others. -/
theorem get?_step (x : Statement) (name : String) : (s.step setting x).types.get? name =
    (x.sighting? name).toList.foldl (TypeEntry.grown setting) (s.types.get? name) := by
  rcases x with (_ | d | t) | d | t
  case define.type | extendType =>
    refine (get?_sightType setting s _ t name).trans ?_
    dsimp only [Statement.sighting?]
    split <;> rfl
  case define.directive => rfl
  all_goals rfl

/-- The entry of a type is what its own sightings make of it, in their order. -/
theorem get?_walk (errors : List Error) (statements : List Statement) (name : String) :
    (walk setting errors statements).types.get? name =
      TypeEntry.ofSightings setting (Sighting.all statements name) := by
  have fold : ∀ s : Survey, (statements.foldl (step setting) s).types.get? name =
      (statements.filterMap (Statement.sighting? name)).foldl (TypeEntry.grown setting) (s.types.get? name) := by
    induction statements with
    | nil => exact fun _ => rfl
    | cons x rest ih =>
      intro s
      rw [List.foldl_cons, ih, get?_step, List.filterMap_cons]
      cases x.sighting? name <;> rfl
  exact fold (start errors)

end Survey

end Federation
