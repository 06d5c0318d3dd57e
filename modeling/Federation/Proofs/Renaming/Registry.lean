import Federation.FieldSet.Selected
import Federation.Implementation
import Federation.Membership.Store
import Federation.Proofs.Renaming.Collection
import Federation.Proofs.Renaming.Statement
import Federation.Registry.Sighting

/-!
# Renaming the types of a registry

A renaming confuses no names, leaves those that mean something to every subgraph, and renames a path with the type at
its head. What is read from a registry is then read from the renamed one under the new names.
-/

namespace Federation

open Schema

/-- Names that mean something to every subgraph, and the words that stand in their places. -/
def Vocabulary.keptNames : List String :=
  impliedTypes ++ [serviceType, entityUnion, publishResult, streamInput, fieldCondition, filterCondition, filterValue,
    "schema", ""]

structure Renaming where
  toFun : String → String
  injective : Function.Injective toFun
  keeps : ∀ name ∈ Vocabulary.keptNames, toFun name = name
  path : ∀ head rest, toFun (head ++ "." ++ rest) = toFun head ++ "." ++ rest

instance : CoeFun Renaming fun _ => String → String := ⟨Renaming.toFun⟩

variable (ρ : Renaming)

def InputValue.rename (v : InputValue) : InputValue := { v with type := v.type.rename ρ }

def Field.rename (x : Field) : Field :=
  { x with type := x.type.rename ρ, arguments := x.arguments.map fun _ => InputValue.rename ρ }

def Composite.rename (c : Composite) : Composite :=
  ⟨c.fields.map fun _ => Field.rename ρ, c.implements.map ρ ρ.injective⟩

def Shape.rename : Shape → Shape
  | .enum values => .enum values
  | .inputObject fields => .inputObject (fields.map fun _ => InputValue.rename ρ)
  | .interface c => .interface (c.rename ρ)
  | .object c => .object (c.rename ρ)
  | .scalar => .scalar
  | .union members => .union (members.map ρ ρ.injective)

def TypeEntry.rename (entry : TypeEntry) : TypeEntry := { entry with shape := entry.shape.rename ρ }

abbrev Registry.rename (types : Registry) : Registry := Table.rekey types ρ ρ.injective (TypeEntry.rename ρ)

abbrev ConcreteTypes.rename (concrete : ConcreteTypes) : ConcreteTypes :=
  Table.rekey concrete ρ ρ.injective fun names => names.map ρ ρ.injective

variable {ρ}

namespace Renaming

@[simp]
theorem eq_iff {a b : String} : ρ a = ρ b ↔ a = b := ρ.injective.eq_iff

/-- Only a name that is kept is renamed to it. -/
theorem eq_iff_of_keeps {name kept : String} (keeps : ρ kept = kept) : ρ name = kept ↔ name = kept := by
  conv_lhs => rw [← keeps]
  exact eq_iff

theorem mem_iff_of_keeps {name : String} {names : List String} (keeps : ∀ kept ∈ names, ρ kept = kept) :
    ρ name ∈ names ↔ name ∈ names := by
  constructor
  · intro member
    rwa [ρ.injective (keeps _ member)] at member
  · intro member
    rwa [keeps name member]

end Renaming

/-! ## Types and fields -/

@[simp]
theorem Field.type_rename (x : Field) : (x.rename ρ).type = x.type.rename ρ := rfl

@[simp]
theorem Field.arguments_rename (x : Field) :
    (x.rename ρ).arguments = x.arguments.map fun _ => InputValue.rename ρ := rfl

@[simp]
theorem Field.directives_rename (x : Field) : (x.rename ρ).directives = x.directives := rfl

@[simp]
theorem Field.isExternal_rename (x : Field) : (x.rename ρ).isExternal = x.isExternal := rfl

@[simp]
theorem Composite.fields_rename (c : Composite) : (c.rename ρ).fields = c.fields.map fun _ => Field.rename ρ := rfl

@[simp]
theorem Composite.implements_rename (c : Composite) : (c.rename ρ).implements = c.implements.map ρ ρ.injective := rfl

namespace Shape

@[simp]
theorem kind_rename (s : Shape) : (s.rename ρ).kind = s.kind := by cases s <;> rfl

@[simp]
theorem composite?_rename (s : Shape) : (s.rename ρ).composite? = s.composite?.map (Composite.rename ρ) := by
  cases s <;> rfl

@[simp]
theorem listedNames_rename (s : Shape) : (s.rename ρ).listedNames = s.listedNames.map ρ ρ.injective := by
  cases s <;> rfl

theorem rename_ofKind (kind : TypeKind) : (ofKind kind).rename ρ = ofKind kind := by cases kind <;> rfl

theorem rename_list (names : List String) (s : Shape) :
    (s.rename ρ).list (names.map ρ) = (s.list names).rename ρ := by
  cases s <;> simp [list, rename, Composite.rename, OrderedSet.insertAll_map]

theorem insertField_rename (name : String) (field : Field) (s : Shape) :
    (s.rename ρ).mapComposite (fun c => { c with fields := c.fields.insert name (field.rename ρ) }) =
      (s.mapComposite fun c => { c with fields := c.fields.insert name field }).rename ρ := by
  cases s <;> simp [rename, mapComposite, Composite.rename, Table.insert_map]

end Shape

namespace TypeEntry

@[simp]
theorem kind_rename (entry : TypeEntry) : (entry.rename ρ).kind = entry.kind := entry.shape.kind_rename

@[simp]
theorem composite?_rename (entry : TypeEntry) :
    (entry.rename ρ).composite? = entry.composite?.map (Composite.rename ρ) := entry.shape.composite?_rename

@[simp]
theorem directives_rename (entry : TypeEntry) : (entry.rename ρ).directives = entry.directives := rfl

@[simp]
theorem isEntity_rename (entry : TypeEntry) : (entry.rename ρ).isEntity = entry.isEntity := rfl

theorem rename_sighted (old? : Option TypeEntry) (kind : TypeKind) (description : Option String)
    (directives : AppliedDirectives) (extension : Extension) :
    sighted (old?.map (rename ρ)) kind description directives extension =
      (sighted old? kind description directives extension).rename ρ := by
  cases old? with
  | none => simp only [sighted, Option.map_none, first, rename, Shape.rename_ofKind]
  | some old => rfl

theorem isSecondBase_rename (old? : Option TypeEntry) (extension : Extension) :
    isSecondBase (old?.map (rename ρ)) extension = isSecondBase old? extension := by
  cases old? <;> rfl

end TypeEntry

namespace Registry

variable (types : Registry) (name field : String)

theorem get?_rename_of_keeps {name : String} (keeps : ρ name = name) :
    (types.rename ρ).get? name = (types.get? name).map (TypeEntry.rename ρ) := by
  have found : (types.rename ρ).get? (ρ name) = (types.get? name).map (TypeEntry.rename ρ) :=
    Table.get?_rekey types name
  rwa [keeps] at found

@[simp]
theorem kind?_rename : (types.rename ρ).kind? (ρ name) = types.kind? name := by
  simp [kind?, Function.comp_def]

@[simp]
theorem composite?_rename :
    (types.rename ρ).composite? (ρ name) = (types.composite? name).map (Composite.rename ρ) := by
  simp only [composite?, Table.get?_rekey]
  cases types.get? name <;> simp

@[simp]
theorem field?_rename : (types.rename ρ).field? (ρ name) field = (types.field? name field).map (Field.rename ρ) := by
  simp only [field?, composite?_rename]
  cases types.composite? name <;> simp [Table.get?_map]

@[simp]
theorem isEntity_rename : (types.rename ρ).isEntity (ρ name) = types.isEntity name := by
  simp only [isEntity, Table.get?_rekey]
  cases types.get? name <;> simp

end Registry

namespace ConcreteTypes

variable (concrete : ConcreteTypes)

@[simp]
theorem of_rename (name : String) : (concrete.rename ρ).of (ρ name) = (concrete.of name).map ρ ρ.injective :=
  Table.getD_rekey (g := fun names : NameSet => names.map ρ ρ.injective) concrete name .empty

@[simp]
theorem isConcrete_rename (abstractName concreteName : String) :
    (concrete.rename ρ).isConcrete (ρ abstractName) (ρ concreteName) =
      concrete.isConcrete abstractName concreteName := by
  simp [isConcrete]

theorem add_rename (abstractName concreteName : String) :
    (concrete.rename ρ).add (ρ abstractName) (ρ concreteName) =
      (concrete.add abstractName concreteName).rename ρ := by
  refine Table.upsert_rekey concrete abstractName fun old => ?_
  cases old with
  | none => exact OrderedSet.insert_map .empty concreteName
  | some names => exact OrderedSet.insert_map names concreteName

end ConcreteTypes

theorem Schema.TypeRef.narrows_rename (concrete : ConcreteTypes) (declared given : TypeRef) :
    narrows (concrete.rename ρ).isConcrete (declared.rename ρ) (given.rename ρ) =
      narrows concrete.isConcrete declared given := by
  induction declared generalizing given with
  | named => cases given <;> simp [rename, narrows]
  | list _ _ ih => cases given <;> simp [rename, narrows, ih]

/-! ## Implementations -/

namespace Implementation

/-- A target under a renaming. -/
def Target.rename (ρ : Renaming) : Target → Target
  | .interface c => .interface (c.rename ρ)
  | other => other

variable (types : Registry) (concrete : ConcreteTypes) (typeName : String) (c : Composite)

theorem target_rename (interfaceName : String) :
    target (types.rename ρ) (ρ typeName) (ρ interfaceName) = (target types typeName interfaceName).rename ρ := by
  unfold target
  rw [Table.get?_rekey]
  cases types.get? interfaceName with
  | none => rfl
  | some entry =>
    obtain ⟨_, _, _, _, shape⟩ := entry
    cases shape with
    | interface c =>
      simp only [Option.map_some, TypeEntry.rename, Shape.rename, Renaming.eq_iff]
      split <;> rfl
    | enum | inputObject | object | scalar | union => rfl

theorem interfaces_rename :
    interfaces (types.rename ρ) (ρ typeName) (c.rename ρ) =
      (interfaces types typeName c).map fun e => (ρ e.1, e.2.rename ρ) := by
  simp only [interfaces, Composite.implements_rename, OrderedSet.toList_map, List.filterMap_map, List.map_filterMap]
  refine List.filterMap_congr fun name _ => ?_
  simp only [Function.comp_apply, target_rename]
  cases target types typeName name <;> rfl

theorem requiredFields_rename :
    requiredFields (types.rename ρ) (ρ typeName) (c.rename ρ) = requiredFields types typeName c := by
  simp [requiredFields, interfaces_rename, List.flatMap_map, Table.keys_map]

theorem undefinedNames_rename :
    undefinedNames (types.rename ρ) (ρ typeName) (c.rename ρ) = (undefinedNames types typeName c).map ρ := by
  simp only [undefinedNames, Composite.implements_rename, OrderedSet.toList_map, List.filter_map]
  refine congrArg _ (List.filter_congr fun name _ => ?_)
  simp only [Function.comp_apply, target_rename]
  cases target types typeName name <;> rfl

theorem nonInterfaces_rename :
    nonInterfaces (types.rename ρ) (ρ typeName) (c.rename ρ) =
      (nonInterfaces types typeName c).map fun e => (ρ e.1, e.2) := by
  simp only [nonInterfaces, Composite.implements_rename, OrderedSet.toList_map, List.filterMap_map,
    List.map_filterMap]
  refine List.filterMap_congr fun name _ => ?_
  simp only [Function.comp_apply, target_rename]
  cases target types typeName name <;> rfl

theorem implementsItself_rename :
    implementsItself (types.rename ρ) (ρ typeName) (c.rename ρ) = implementsItself types typeName c := by
  simp only [implementsItself, Composite.implements_rename, OrderedSet.toList_map, List.any_map]
  refine congrArg (List.any _) (funext fun name => ?_)
  simp only [Function.comp_apply, target_rename]
  cases target types typeName name <;> rfl

theorem isEmpty_filterMap {α β : Type} (l : List α) (f : α → Option β) :
    (l.filterMap f).isEmpty = l.all fun a => (f a).isNone := by
  induction l with
  | nil => rfl
  | cons a rest ih => cases h : f a <;> simp [h, ← ih]

/-- Texts of types change with their names, but whether there is a mismatch does not. -/
theorem isNone_compareField_rename (isParentInaccessible : Bool) (declared given : Field) :
    (compareField (concrete.rename ρ) isParentInaccessible (declared.rename ρ) (given.rename ρ)).isNone =
      (compareField concrete isParentInaccessible declared given).isNone := by
  have narrows : (compareField (concrete.rename ρ) isParentInaccessible (declared.rename ρ)
      (given.rename ρ)).invalidType.isNone =
        (compareField concrete isParentInaccessible declared given).invalidType.isNone := by
    simp only [compareField, Field.type_rename, TypeRef.narrows_rename]
    split <;> rfl
  have mismatched : (compareField (concrete.rename ρ) isParentInaccessible (declared.rename ρ)
      (given.rename ρ)).mismatchedArguments.isEmpty =
        (compareField concrete isParentInaccessible declared given).mismatchedArguments.isEmpty := by
    simp only [compareField, Field.arguments_rename, isEmpty_filterMap, Table.toList_map, List.all_map]
    refine congrArg (List.all _) (funext fun e => ?_)
    simp only [Function.comp_apply, Table.get?_map]
    cases given.arguments.get? e.1 with
    | none => rfl
    | some other =>
      simp only [Option.map_some, InputValue.rename, (TypeRef.rename_injective ρ.injective).eq_iff]
      split <;> rfl
  have extra : (compareField (concrete.rename ρ) isParentInaccessible (declared.rename ρ)
      (given.rename ρ)).extraArguments =
        (compareField concrete isParentInaccessible declared given).extraArguments := by
    simp [compareField, List.filterMap_map, InputValue.rename]
  have missing : (compareField (concrete.rename ρ) isParentInaccessible (declared.rename ρ)
      (given.rename ρ)).missingArguments =
        (compareField concrete isParentInaccessible declared given).missingArguments := by
    simp [compareField, Table.keys_map]
  simp only [FieldMismatch.isNone, narrows, mismatched, extra, missing]
  rfl

theorem isNone_compare_rename (isInaccessible : Bool) (interface given : Composite) :
    (compare (concrete.rename ρ) isInaccessible (interface.rename ρ) (given.rename ρ)).isNone =
      (compare concrete isInaccessible interface given).isNone := by
  simp only [InterfaceMismatch.isNone, compare, Composite.fields_rename, Table.keys_map, Table.contains_map,
    isEmpty_filterMap, Table.toList_map, List.all_map]
  refine congrArg (_ && List.all _ ·) (funext fun e => ?_)
  simp only [Function.comp_apply, Table.get?_map]
  cases given.fields.get? e.1 with
  | none => rfl
  | some field =>
    simp only [Option.map_some, isNone_compareField_rename]
    split <;> rfl

theorem isEmpty_mismatches_rename (isInaccessible : Bool) :
    (mismatches (types.rename ρ) (concrete.rename ρ) (ρ typeName) isInaccessible (c.rename ρ)).isEmpty =
      (mismatches types concrete typeName isInaccessible c).isEmpty := by
  simp only [mismatches, interfaces_rename, isEmpty_filterMap, List.all_map]
  refine congrArg (List.all _) (funext fun e => ?_)
  simp only [Function.comp_apply, isNone_compare_rename]
  split <;> rfl

end Implementation

end Federation
