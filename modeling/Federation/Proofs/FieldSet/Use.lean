import Federation.Proofs.FieldSet.Typing
import Federation.Proofs.Normalization.Override
import Federation.Proofs.Permutation.Survey
import Federation.Proofs.Survey.External

/-!
# Uses of external fields

A field that another subgraph is said to resolve is of use where a valid field set selects it, on whatever type that
stands, or an implemented interface asks for it. These uses are found by coordinates, which tell the fields of a
registry apart.
-/

namespace Federation

open Schema

/-! ## Uses of a field -/

namespace Registry

/-- A field set that stands on a registered type or on a field of one, with its use and the type that it selects fields
of. A key of white space declares none. -/
inductive Declares (types : Registry) : FieldSetUse → String → String → Prop
  | key {typeName fieldSet : String} {key : Directive} (registered : (types.composite? typeName).isSome = true)
      (kept : key ∈ (types.applied typeName).named Vocabulary.key)
      (written : key.string? Vocabulary.fields = some fieldSet) (proper : Text.trim fieldSet ≠ "") :
      Declares types .key typeName fieldSet
  | provides {typeName name fieldSet : String} {f : Field} (declared : types.field? typeName name = some f)
      (written : f.directives.fieldSet? Vocabulary.provides = some fieldSet) :
      Declares types .provides f.type.namedType fieldSet
  | requires {typeName name fieldSet : String} {f : Field} (declared : types.field? typeName name = some f)
      (written : f.directives.fieldSet? Vocabulary.requires = some fieldSet) :
      Declares types .requires typeName fieldSet

/-- Whether a valid field set of this use selects a field, at any depth. -/
def Selects (types : Registry) (use : FieldSetUse) (typeName name : String) : Prop :=
  ∃ target fieldSet selections, types.Declares use target fieldSet ∧
    FieldSet.check types use target fieldSet = .ok selections ∧
    ∃ path ∈ FieldSet.listPaths selections, FieldSet.place? types target path = some (typeName, name)

/-- Whether some other interface that a type implements has a field of this name. -/
def AsksFor (types : Registry) (typeName name : String) : Prop :=
  ∃ c interface, types.composite? typeName = some c ∧ interface ∈ c.implements.toList ∧ interface ≠ typeName ∧
    types.kind? interface = some .interface ∧ (types.field? interface name).isSome = true

/-- A field that another subgraph is said to resolve and that nothing refers to. -/
structure IsUnused (types : Registry) (typeName name : String) : Prop where
  external : ∃ f, types.field? typeName name = some f ∧ f.isExternal = true
  unselected : ∀ use, ¬ types.Selects use typeName name
  unasked : ¬ types.AsksFor typeName name

variable {types : Registry}

/-- No two registered fields have the same coordinates, where no name of a type has a dot. -/
theorem coordinates_eq_iff (plain : ∀ typeName, (types.composite? typeName).isSome = true → '.' ∉ typeName.toList)
    {typeName typeName' name name' : String} (registered : (types.composite? typeName).isSome = true)
    (registered' : (types.composite? typeName').isSome = true) :
    coordinates typeName name = coordinates typeName' name' ↔ typeName = typeName' ∧ name = name' := by
  refine ⟨fun same => ?_, fun ⟨type, field⟩ => type ▸ field ▸ rfl⟩
  -- Up to their first dot, coordinates are the name of the type. The rest is the name of the field.
  obtain rfl := coordinates_injective (plain typeName registered) (plain typeName' registered') same
  have dotted (name : String) : (coordinates typeName name).toList = typeName.toList ++ '.' :: name.toList := by
    change (typeName ++ "." ++ name).toList = _
    simp
  have fields := congrArg String.toList same
  rw [dotted, dotted] at fields
  exact ⟨rfl, String.toList_inj.mp (List.cons.inj (List.append_cancel_left fields)).2⟩

theorem isSome_composite?_of_field? {typeName name : String} (declared : (types.field? typeName name).isSome = true) :
    (types.composite? typeName).isSome = true := by
  unfold field? at declared
  cases known : types.composite? typeName with
  | none => simp [known] at declared
  | some c => rfl

theorem isSome_composite?_eq (types : Registry) (typeName : String) :
    (types.composite? typeName).isSome = (types.kind? typeName).any TypeKind.hasFields := by
  rw [Bool.eq_iff_iff, isSome_composite?_iff]
  cases types.kind? typeName with
  | none => simp
  | some kind => cases kind <;> simp [TypeKind.hasFields]

/-- The coordinates of a registered field are among those that a valid field set selects just where this field is. -/
theorem mem_listCoordinates_iff
    (plain : ∀ typeName, (types.composite? typeName).isSome = true → '.' ∉ typeName.toList)
    {use : FieldSetUse} {target fieldSet : String} {selections : List Selection}
    (valid : FieldSet.check types use target fieldSet = .ok selections) {typeName name : String}
    (registered : (types.composite? typeName).isSome = true) :
    coordinates typeName name ∈ FieldSet.listCoordinates types target selections ↔
      ∃ path ∈ FieldSet.listPaths selections, FieldSet.place? types target path = some (typeName, name) := by
  rw [FieldSet.mem_listCoordinates]
  refine exists_congr fun path => and_congr_right fun selected => ?_
  obtain ⟨place, found, declared⟩ :=
    FieldSet.exists_place?_of_faults (FieldSet.check_eq_ok_iff.mp valid).2 path selected
  simp only [found, Option.some.injEq, exists_eq_left']
  rw [coordinates_eq_iff plain (isSome_composite?_of_field? declared) registered, Prod.ext_iff]

end Registry

namespace FieldSet

theorem DeclaredKey.selections?_eq_some_iff {k : DeclaredKey} {selections : List Selection} :
    k.selections? = some selections ↔ Text.trim k.fieldSet ≠ "" ∧ k.outcome = .ok selections := by
  unfold selections? isBlank
  by_cases blank : Text.trim k.fieldSet = ""
  · simp [blank]
  · cases k.outcome <;> simp [blank]

theorem DeclaredKey.mem_coordinates {types : Registry} {k : DeclaredKey} {here : String} :
    here ∈ k.coordinates types ↔ ∃ selections, (Text.trim k.fieldSet ≠ "" ∧ k.outcome = .ok selections) ∧
      here ∈ listCoordinates types k.typeName selections := by
  simp only [← selections?_eq_some_iff]
  unfold coordinates
  cases k.selections? <;> simp

theorem DeclaredSelection.mem_coordinates {types : Registry} {d : DeclaredSelection} {here : String} :
    here ∈ d.coordinates types ↔ ∃ selections, d.outcome = .ok selections ∧
      here ∈ listCoordinates types d.target selections := by
  unfold coordinates selections?
  cases d.outcome <;> simp

end FieldSet

/-! ## What is known of the fields in the end -/

namespace Assembly

variable {a : Assembly}

/-- What the survey noted of keys and fields agrees with the registry, in which no name of a type has a dot. -/
structure Tracked (a : Assembly) : Prop where
  keys : a.survey.RecordsKeys
  fields : a.survey.TracksFields
  plain : ∀ typeName, (a.types.composite? typeName).isSome = true → '.' ∉ typeName.toList

namespace Tracked

variable (tracked : a.Tracked) {typeName name : String} {f : Field}

include tracked

theorem mem_externals (declared : a.types.field? typeName name = some f) :
    coordinates typeName name ∈ a.survey.externals.toList ↔ f.isExternal = true := by
  have registered (typeName name : String) (f : Field) (declared : a.types.field? typeName name = some f) :
      (a.types.composite? typeName).isSome = true :=
    Registry.isSome_composite?_of_field? (by rw [declared]; rfl)
  rw [tracked.fields.externals]
  constructor
  · rintro ⟨typeName', name', f', declared', external, same⟩
    obtain ⟨rfl, rfl⟩ := (Registry.coordinates_eq_iff tracked.plain (registered _ _ _ declared')
      (registered _ _ _ declared)).mp same
    exact Option.some.inj (declared'.symm.trans declared) ▸ external
  · exact fun external => ⟨typeName, name, f, declared, external, rfl⟩

/-- The keys that are checked are those that the registered types keep. -/
theorem mem_keys {typeName fieldSet : String} :
    (∃ sets, a.survey.keySets.get? typeName = some sets ∧ fieldSet ∈ sets.keys) ↔
      (a.types.composite? typeName).isSome = true ∧
        ∃ key ∈ (a.types.applied typeName).named Vocabulary.key, key.string? Vocabulary.fields = some fieldSet := by
  have keyed : (∃ key ∈ (a.types.applied typeName).named Vocabulary.key,
      key.string? Vocabulary.fields = some fieldSet) → (a.types.applied typeName).contains Vocabulary.key = true := by
    rintro ⟨key, kept, -⟩
    rw [Table.contains_iff, ← Table.get?_isSome_iff]
    cases known : Table.get? (a.types.applied typeName) Vocabulary.key with
    | none => simp [AppliedDirectives.named, Table.getD, known] at kept
    | some _ => rfl
  rw [tracked.keys.keySets]
  change (∃ sets, a.types.declaredKeys typeName = some sets ∧ _) ↔ _
  unfold Registry.declaredKeys
  rw [← Registry.isSome_composite?_eq]
  constructor
  · rintro ⟨sets, declared, listed⟩
    split at declared
    · next present =>
      obtain rfl := Option.some.inj declared
      exact ⟨(Bool.and_eq_true_iff.mp present).1, KeySets.mem_keys_ofKeys.mp listed⟩
    · contradiction
  · rintro ⟨registered, kept⟩
    exact ⟨_, if_pos (Bool.and_eq_true_iff.mpr ⟨registered, keyed kept⟩), KeySets.mem_keys_ofKeys.mpr kept⟩

/-- A field is among the coordinates of keys just where a valid key selects it. -/
theorem mem_keyCoordinates (registered : (a.types.composite? typeName).isSome = true) :
    coordinates typeName name ∈ (a.keys.flatMap fun e => e.2.flatMap (·.coordinates a.types)) ↔
      a.types.Selects .key typeName name := by
  simp only [Assembly.keys, List.mem_flatMap, List.mem_map, Prod.exists]
  constructor
  · rintro ⟨_, _, ⟨host, sets, noted, same⟩, k, listed, selected⟩
    obtain ⟨rfl, rfl⟩ := Prod.mk.inj same
    obtain ⟨⟨fieldSet, isResolvable⟩, written, rfl⟩ := List.mem_map.mp listed
    obtain ⟨selections, ⟨proper, valid⟩, selected⟩ := FieldSet.DeclaredKey.mem_coordinates.mp selected
    obtain ⟨composite, key, kept, written⟩ := tracked.mem_keys.mp
      ⟨sets, Table.mem_toList.mp noted, List.mem_map.mpr ⟨_, written, rfl⟩⟩
    exact ⟨host, fieldSet, selections, .key composite kept written proper, valid,
      (Registry.mem_listCoordinates_iff tracked.plain valid registered).mp selected⟩
  · rintro ⟨host, fieldSet, selections, declared, valid, selected⟩
    obtain ⟨composite, kept, written, proper⟩ := declared
    obtain ⟨sets, noted, listed⟩ := tracked.mem_keys.mpr ⟨composite, _, kept, written⟩
    obtain ⟨⟨_, isResolvable⟩, stored, rfl⟩ := List.mem_map.mp listed
    refine ⟨_, _, ⟨host, sets, Table.mem_toList.mpr noted, rfl⟩, _, List.mem_map.mpr ⟨_, stored, rfl⟩, ?_⟩
    exact FieldSet.DeclaredKey.mem_coordinates.mpr ⟨selections, ⟨proper, valid⟩,
      (Registry.mem_listCoordinates_iff tracked.plain valid registered).mpr selected⟩

/-- The field sets that are checked for a field are those of the directives that it keeps. -/
theorem mem_declaredSelections {d : FieldSet.DeclaredSelection} : d ∈ a.declaredSelections ↔
    ∃ host name f fieldSet, a.types.field? host name = some f ∧
      (f.directives.fieldSet? Vocabulary.provides = some fieldSet ∧
          d = ⟨.provides, host, name, fieldSet, f.type.namedType,
            FieldSet.check a.types .provides f.type.namedType fieldSet⟩ ∨
        f.directives.fieldSet? Vocabulary.requires = some fieldSet ∧
          d = ⟨.requires, host, name, fieldSet, host, FieldSet.check a.types .requires host fieldSet⟩) := by
  have noted (host name : String) := tracked.fields.fieldSets host name
  unfold Survey.notedFieldSets Table.getD at noted
  simp only [Prod.mk.injEq] at noted
  constructor
  · intro member
    obtain ⟨⟨host, sets⟩, stored, listed⟩ := List.mem_flatMap.mp member
    have noted := noted host
    simp only [Table.mem_toList.mp stored, Option.getD_some] at noted
    rcases List.mem_append.mp listed with provided | required
    · obtain ⟨⟨name, fieldSet⟩, entry, rfl⟩ := List.mem_map.mp provided
      obtain ⟨f, declared, written⟩ :=
        Option.bind_eq_some_iff.mp ((noted name).1.symm.trans (Table.mem_toList.mp entry))
      have declared' : a.survey.types.field? host name = some f := declared
      exact ⟨host, name, f, fieldSet, declared, .inl ⟨written, by simp [types, declared']⟩⟩
    · obtain ⟨⟨name, fieldSet⟩, entry, rfl⟩ := List.mem_map.mp required
      obtain ⟨f, declared, written⟩ :=
        Option.bind_eq_some_iff.mp ((noted name).2.symm.trans (Table.mem_toList.mp entry))
      exact ⟨host, name, f, fieldSet, declared, .inr ⟨written, rfl⟩⟩
  · rintro ⟨host, name, f, fieldSet, declared, written⟩
    have noted := noted host name
    have declared' : a.survey.types.field? host name = some f := declared
    rw [declared', Option.bind_some, Option.bind_some] at noted
    obtain ⟨sets, stored⟩ : ∃ sets, a.survey.fieldSets.get? host = some sets := by
      cases stored : a.survey.fieldSets.get? host with
      | some sets => exact ⟨sets, rfl⟩
      | none =>
        -- Nothing would be noted for the field.
        simp only [stored, Option.getD_none, FieldSets.empty, Table.get?_empty] at noted
        rcases written with ⟨written, -⟩ | ⟨written, -⟩
        · exact absurd (noted.1.trans written) nofun
        · exact absurd (noted.2.trans written) nofun
    simp only [stored, Option.getD_some] at noted
    refine List.mem_flatMap.mpr ⟨(host, sets), Table.mem_toList.mpr stored, ?_⟩
    rcases written with ⟨written, rfl⟩ | ⟨written, rfl⟩
    · refine List.mem_append_left _ (List.mem_map.mpr ⟨(name, fieldSet), ?_, by simp [declared]⟩)
      exact Table.mem_toList.mpr (noted.1.trans written)
    · refine List.mem_append_right _ (List.mem_map.mpr ⟨(name, fieldSet), ?_, rfl⟩)
      exact Table.mem_toList.mpr (noted.2.trans written)

/-- A field is among the coordinates of what fields provide and require just where a valid field set selects it. -/
theorem mem_selectionCoordinates (registered : (a.types.composite? typeName).isSome = true) :
    coordinates typeName name ∈ a.declaredSelections.flatMap (·.coordinates a.types) ↔
      a.types.Selects .provides typeName name ∨ a.types.Selects .requires typeName name := by
  rw [List.mem_flatMap]
  constructor
  · rintro ⟨d, listed, selected⟩
    obtain ⟨selections, valid, selected⟩ := FieldSet.DeclaredSelection.mem_coordinates.mp selected
    obtain ⟨host, field, f, fieldSet, declared, ⟨written, rfl⟩ | ⟨written, rfl⟩⟩ :=
      tracked.mem_declaredSelections.mp listed
    · exact .inl ⟨_, fieldSet, selections, .provides declared written, valid,
        (Registry.mem_listCoordinates_iff tracked.plain valid registered).mp selected⟩
    · exact .inr ⟨_, fieldSet, selections, .requires declared written, valid,
        (Registry.mem_listCoordinates_iff tracked.plain valid registered).mp selected⟩
  · rintro (⟨_, fieldSet, selections, declares, valid, selected⟩ | ⟨_, fieldSet, selections, declares, valid, selected⟩)
    · obtain _ | ⟨declared, written⟩ := declares
      refine ⟨_, tracked.mem_declaredSelections.mpr ⟨_, _, _, fieldSet, declared, .inl ⟨written, rfl⟩⟩, ?_⟩
      exact FieldSet.DeclaredSelection.mem_coordinates.mpr ⟨selections, valid,
        (Registry.mem_listCoordinates_iff tracked.plain valid registered).mpr selected⟩
    · obtain _ | _ | ⟨declared, written⟩ := declares
      refine ⟨_, tracked.mem_declaredSelections.mpr ⟨_, _, _, fieldSet, declared, .inr ⟨written, rfl⟩⟩, ?_⟩
      exact FieldSet.DeclaredSelection.mem_coordinates.mpr ⟨selections, valid,
        (Registry.mem_listCoordinates_iff tracked.plain valid registered).mpr selected⟩

omit tracked in
/-- The fields that are compared for an implementation are those of the other interfaces that the type implements. -/
theorem mem_requiredFields {c : Composite} (composite : a.types.composite? typeName = some c) :
    name ∈ Implementation.requiredFields a.types typeName c ↔ a.types.AsksFor typeName name := by
  have asked (interfaceName : String) : (∃ interface, Implementation.target a.types typeName interfaceName =
        .interface interface ∧ name ∈ interface.fields.keys) ↔
      interfaceName ≠ typeName ∧ a.types.kind? interfaceName = some .interface ∧
        (a.types.field? interfaceName name).isSome = true := by
    unfold Implementation.target Registry.field? Registry.kind? Registry.composite?
    cases found : a.types.get? interfaceName with
    | none => simp
    | some entry =>
      obtain ⟨_, _, _, _, shape⟩ := entry
      by_cases itself : interfaceName = typeName <;> cases shape <;>
        simp [itself, TypeEntry.kind, Shape.kind, TypeEntry.composite?, Shape.composite?, Table.get?_isSome_iff]
  simp only [Implementation.requiredFields, Implementation.interfaces, List.mem_flatMap, List.mem_filterMap]
  constructor
  · rintro ⟨⟨_, interface⟩, ⟨interfaceName, listed, target⟩, member⟩
    split at target
    · next reached =>
      obtain ⟨rfl, rfl⟩ := Prod.mk.inj (Option.some.inj target)
      exact ⟨c, interfaceName, composite, listed, (asked interfaceName).mp ⟨_, reached, member⟩⟩
    · contradiction
  · rintro ⟨c', interfaceName, composite', listed, other⟩
    obtain rfl := Option.some.inj (composite.symm.trans composite')
    obtain ⟨interface, reached, member⟩ := (asked interfaceName).mpr other
    exact ⟨(interfaceName, interface), ⟨interfaceName, listed, by rw [reached]⟩, member⟩

/-- A field of an own type is among the used ones if an interface asks for it or a valid field set selects it. -/
theorem mem_usedCoordinates (registered : (a.types.composite? typeName).isSome = true)
    (own : a.isSupportType typeName = false) : coordinates typeName name ∈ a.usedCoordinates ↔
      a.types.AsksFor typeName name ∨ ∃ use, a.types.Selects use typeName name := by
  have uses : (∃ use, a.types.Selects use typeName name) ↔ a.types.Selects .key typeName name ∨
      a.types.Selects .provides typeName name ∨ a.types.Selects .requires typeName name := by
    constructor
    · rintro ⟨_ | _ | _, selects⟩
      · exact .inl selects
      · exact .inr (.inl selects)
      · exact .inr (.inr selects)
    · rintro (selects | selects | selects) <;> exact ⟨_, selects⟩
  rw [usedCoordinates, List.mem_append, List.mem_append, tracked.mem_selectionCoordinates registered, uses, or_assoc]
  refine or_congr ?asked (or_congr_left (tracked.mem_keyCoordinates registered))
  rw [List.mem_flatMap]
  constructor
  · rintro ⟨⟨typeName', entry, c⟩, member, named⟩
    obtain ⟨found, consists, -⟩ := mem_ownComposites.mp member
    have composite : a.types.composite? typeName' = some c := by simp [Registry.composite?, found, consists]
    obtain ⟨field, required, same⟩ := List.mem_map.mp named
    obtain ⟨rfl, rfl⟩ := (Registry.coordinates_eq_iff tracked.plain (by simp [composite]) registered).mp same
    exact (mem_requiredFields composite).mp required
  · intro asked
    obtain ⟨c, composite⟩ := Option.isSome_iff_exists.mp registered
    obtain ⟨entry, found, consists⟩ := Option.bind_eq_some_iff.mp composite
    -- Only own types are compared with their interfaces.
    exact ⟨(typeName, entry, c), mem_ownComposites.mpr ⟨found, consists, own⟩,
      List.mem_map_of_mem ((mem_requiredFields composite).mpr asked)⟩

/-- The external fields that are reported are those that nothing refers to. -/
theorem mem_unusedExternals (declared : a.types.field? typeName name = some f)
    (own : a.isSupportType typeName = false) :
    coordinates typeName name ∈ a.unusedExternals ↔ a.types.IsUnused typeName name := by
  have registered : (a.types.composite? typeName).isSome = true :=
    Registry.isSome_composite?_of_field? (by rw [declared]; rfl)
  rw [unusedExternals, List.mem_filter, decide_eq_true_eq, tracked.mem_externals declared,
    tracked.mem_usedCoordinates registered own, not_or, not_exists]
  constructor
  · rintro ⟨external, unasked, unselected⟩
    exact ⟨⟨f, declared, external⟩, unselected, unasked⟩
  · rintro ⟨⟨f', declared', external⟩, unselected, unasked⟩
    exact ⟨Option.some.inj (declared'.symm.trans declared) ▸ external, unasked, unselected⟩

end Tracked

end Assembly

end Federation
