import Federation.Normalization.Outcome
import Federation.Proofs.Renaming.Event
import Federation.Proofs.Renaming.Inheritance

/-!
# What is assembled of a renamed subgraph

Where surveys and ledgers are alike, the one subgraph is valid where the other is, and the router gets the same
configuration of both but for the names of concrete types.
-/

namespace Federation

open Schema

variable {ρ : Renaming} {own : Operation}

/-- Subgraphs before and after a root type is renamed. -/
structure Assembly.Mirrors (ρ : Renaming) (own : Operation) (a a' : Assembly) : Prop where
  setting : a.setting.Mirrors ρ own a'.setting
  survey : a.survey.Mirrors ρ a'.survey
  ledger : a.ledger.Mirrors ρ a'.ledger
  settled : ∀ name ∈ a.types.keys, ρ.Settles own name
  registered : own.defaultTypeName ∈ a.types.keys

namespace Assembly.Mirrors

variable {a a' : Assembly} (h : a.Mirrors ρ own a')

include h

theorem types : a'.types = a.types.rename ρ := h.survey.types

theorem isSupportType (name : String) : a'.isSupportType (ρ name) = a.isSupportType name := by
  have scalars : (ρ name = Vocabulary.fieldSetScalar ↔ name = Vocabulary.fieldSetScalar) ∧
      (ρ name = Vocabulary.scopeScalar ↔ name = Vocabulary.scopeScalar) :=
    ⟨Renaming.eq_iff_of_keeps (ρ.keeps _ (by decide)), Renaming.eq_iff_of_keeps (ρ.keeps _ (by decide))⟩
  simp only [Assembly.isSupportType, scalars.1, scalars.2, h.setting.isVersionTwo]

theorem ownTypes : a'.ownTypes = a.ownTypes.map fun e => (ρ e.1, e.2.rename ρ) := by
  simp only [Assembly.ownTypes, h.types, Table.toList_rekey, List.filter_map]
  refine congrArg _ (List.filter_congr fun e _ => ?_)
  simp only [Function.comp_apply, h.isSupportType]

theorem settled_of_own {e : String × TypeEntry} (own' : e ∈ a.ownTypes) : ρ.Settles own e.1 :=
  h.settled e.1 (List.mem_map_of_mem (List.mem_filter.mp own').1)

theorem ownComposites : a'.ownComposites = a.ownComposites.map fun e => (ρ e.1, e.2.1.rename ρ, e.2.2.rename ρ) := by
  simp only [Assembly.ownComposites, h.ownTypes, List.filterMap_map, List.map_filterMap]
  refine List.filterMap_congr fun e _ => ?_
  simp only [Function.comp_apply, TypeEntry.composite?_rename]
  cases e.2.composite? <;> rfl

theorem kind? (name : String) : a'.types.kind? (ρ name) = a.types.kind? name := by
  rw [h.types]
  exact a.types.kind?_rename name

theorem contains (name : String) : a'.types.contains (ρ name) = a.types.contains name := by
  rw [h.types, Table.contains_rekey]

/-! ## Root types -/

/-- Nothing is left under the name that the root type had. -/
theorem notMem_keys : own.defaultTypeName ∉ a'.types.keys := by
  rw [h.types, Table.keys_rekey]
  intro member
  obtain ⟨name, registered, same⟩ := List.mem_map.mp member
  have stays : name = own.defaultTypeName := (h.settled name registered).elim id fun stays => stays.symm.trans same
  exact h.setting.roots.moved (stays ▸ same)

theorem rootName_own : (a.rootName own).1 = own.defaultTypeName := by
  unfold Assembly.rootName
  cases declared : a.setting.roots.byOperation.get? own with
  | none => rfl
  | some name => exact h.setting.roots.declared name declared

theorem rootName_own' : (a'.rootName own).1 = ρ own.defaultTypeName := by
  unfold Assembly.rootName
  rw [h.setting.roots.declared']

theorem rootName (operation : Operation) :
    (a'.rootName operation).1 = ρ (a.rootName operation).1 ∨ a.setting.roots.Yields ρ own operation := by
  by_cases same : operation = own
  · subst same
    exact .inl (h.rootName_own'.trans (congrArg ρ h.rootName_own.symm))
  · refine (h.setting.roots.others operation same).imp_left fun stays => ?_
    unfold Assembly.rootName
    rw [h.setting.roots.byOperation operation same]
    cases a.setting.roots.byOperation.get? operation with
    | none => exact stays.symm
    | some name => rfl

section Yields

variable {operation : Operation} (yields : a.setting.roots.Yields ρ own operation)

include yields

theorem ne_of_yields : operation ≠ own := by
  rintro rfl
  exact h.setting.roots.moved yields.gained

omit h in
theorem rootName_of_yields : a.rootName operation = (operation.defaultTypeName, false) := by
  simp [Assembly.rootName, yields.byOperation]

theorem rootName_of_yields' : a'.rootName operation = (operation.defaultTypeName, false) := by
  simp [Assembly.rootName, h.setting.roots.byOperation operation (h.ne_of_yields yields), yields.byOperation]

/-- A default name that is yielded is that of no type. -/
theorem notMem_keys_of_yields : operation.defaultTypeName ∉ a.types.keys := by
  intro registered
  rcases h.settled _ registered with same | stays
  · exact h.ne_of_yields yields (Operation.defaultTypeName_injective same)
  · exact h.ne_of_yields yields (Operation.defaultTypeName_injective (ρ.injective (stays.trans yields.gained.symm)))

end Yields

theorem isShadowed (operation : Operation) : a'.isShadowed operation = a.isShadowed operation := by
  unfold Assembly.isShadowed
  by_cases same : operation = own
  · subst same
    have absent : a'.types.contains operation.defaultTypeName = false := by
      simpa [Table.contains] using h.notMem_keys
    simp [absent, h.rootName_own]
  · rcases h.setting.roots.others operation same with stays | yields
    · have known : a'.types.contains operation.defaultTypeName = a.types.contains operation.defaultTypeName := by
        rw [← h.contains, stays]
      rcases h.rootName operation with root | yields
      · simp only [known, root, ne_eq, Renaming.eq_iff_of_keeps stays]
      · simp [rootName_of_yields yields, h.rootName_of_yields' yields]
    · simp [rootName_of_yields yields, h.rootName_of_yields' yields]

/-- Among the root types of a subgraph are those of the renamed one. -/
theorem canonicalName_mem_definedRoots {name : String} (registered : name ∈ a.types.keys) :
    a.setting.roots.canonicalName name ∈ a'.definedRoots ↔ a.setting.roots.canonicalName name ∈ a.definedRoots := by
  simp only [Assembly.definedRoots, List.mem_filterMap, h.isShadowed]
  refine exists_congr fun operation => and_congr_right fun _ => ?_
  rcases h.rootName operation with root | yields
  · rw [root, h.contains]
  -- A type that is registered does not have the canonical name that is yielded.
  · have other : operation.defaultTypeName ≠ a.setting.roots.canonicalName name := by
      rcases a.setting.roots.canonicalName_cases name with ⟨-, same⟩ | ⟨declared, found, same⟩
      · rw [same]
        rintro rfl
        exact h.notMem_keys_of_yields yields registered
      · rw [same]
        intro same
        obtain rfl := Operation.defaultTypeName_injective same
        exact yields.byTypeName name found
    simp [other]

/-- What is asked of the root type of each operation. -/
theorem forall_operations {p p' : Operation → Prop}
    (alike : ∀ operation, (a'.rootName operation).1 = ρ (a.rootName operation).1 → (p' operation ↔ p operation))
    (before : ∀ operation, a.setting.roots.Yields ρ own operation → p operation)
    (after : ∀ operation, a.setting.roots.Yields ρ own operation → p' own → p' operation) :
    (∀ operation, p' operation) ↔ ∀ operation, p operation := by
  have root : p' own ↔ p own := alike own (h.rootName_own'.trans (congrArg ρ h.rootName_own.symm))
  refine ⟨fun all operation => ?_, fun all operation => ?_⟩
  · exact (h.rootName operation).elim (fun same => (alike operation same).mp (all operation)) (before operation)
  · exact (h.rootName operation).elim (fun same => (alike operation same).mpr (all operation))
      fun yields => after operation yields (root.mpr (all own))

theorem isShadowed_own : a'.isShadowed own = false := by
  rw [h.isShadowed]
  simp [Assembly.isShadowed, h.rootName_own]

theorem rootErrors_of_rootName {operation : Operation}
    (same : (a'.rootName operation).1 = ρ (a.rootName operation).1) :
    a'.rootErrors operation = [] ↔ a.rootErrors operation = [] := by
  unfold Assembly.rootErrors
  dsimp only
  rw [h.isShadowed, same, h.kind?]
  split
  · simp
  · split
    · split <;> simp
    · exact Iff.rfl

theorem rootErrors : (∀ operation, a'.rootErrors operation = []) ↔ ∀ operation, a.rootErrors operation = [] := by
  refine h.forall_operations (fun _ => h.rootErrors_of_rootName) (fun operation yields => ?_)
    fun operation yields quiet => ?_
  · have absent : a.types.kind? operation.defaultTypeName = none := by
      rw [Registry.kind?, Table.get?_eq_none_iff.mpr (h.notMem_keys_of_yields yields), Option.map_none]
    simp [Assembly.rootErrors, Assembly.isShadowed, rootName_of_yields yields, absent]
  · unfold Assembly.rootErrors at quiet ⊢
    dsimp only at quiet ⊢
    rw [h.isShadowed_own, h.rootName_own', yields.gained] at quiet
    rw [h.rootName_of_yields' yields]
    have unshadowed : a'.isShadowed operation = false := by simp [Assembly.isShadowed, h.rootName_of_yields' yields]
    cases known : a'.types.kind? operation.defaultTypeName with
    | none => simp [unshadowed]
    | some kind =>
      rw [known] at quiet
      simpa [unshadowed] using quiet

/-! ## Types -/

theorem argumentErrors (typeName : String) (c : Composite) :
    a'.argumentErrors (ρ typeName) (c.rename ρ) = [] ↔ a.argumentErrors typeName c = [] := by
  have outputs (x : Field) : a'.outputArguments (x.rename ρ) = [] ↔ a.outputArguments x = [] := by
    simp only [Assembly.outputArguments, Field.arguments_rename, Table.toList_map, List.filterMap_map,
      List.filterMap_eq_nil_iff, Function.comp_apply, InputValue.rename, TypeRef.namedType_rename, h.kind?]
    refine forall₂_congr fun e _ => ?_
    cases a.types.kind? e.2.type.namedType with
    | none => exact Iff.rfl
    | some kind => cases kind.isInput <;> simp
  simp only [Assembly.argumentErrors, Composite.fields_rename, Table.toList_map, List.filterMap_map,
    List.filterMap_eq_nil_iff, Function.comp_apply, List.isEmpty_iff, outputs]
  refine forall₂_congr fun e _ => ?_
  by_cases quiet : a.outputArguments e.2 = [] <;> simp [quiet]

omit h in
theorem externalFields_rename (entry : TypeEntry) (c : Composite) :
    externalFields (entry.rename ρ) (c.rename ρ) = externalFields entry c := by
  simp only [externalFields, TypeEntry.kind_rename, Composite.fields_rename, Table.toList_map, List.filter_map,
    List.map_map]
  rfl

theorem implementationErrors (typeName : String) (entry : TypeEntry) (c : Composite) :
    a'.implementationErrors (ρ typeName) (entry.rename ρ) (c.rename ρ) = [] ↔
      a.implementationErrors typeName entry c = [] := by
  simp only [Assembly.implementationErrors, h.types, h.survey.concrete, Implementation.undefinedNames_rename,
    Implementation.nonInterfaces_rename, Implementation.implementsItself_rename,
    Implementation.isEmpty_mismatches_rename, List.isEmpty_map, TypeEntry.directives_rename, List.append_eq_nil_iff,
    List.map_eq_nil_iff, ite_eq_left_iff, ite_eq_right_iff, reduceCtorEq, imp_false]

theorem compositeErrors {typeName : String} (settled : ρ.Settles own typeName) (entry : TypeEntry) (c : Composite) :
    a'.compositeErrors (ρ typeName) (entry.rename ρ) (c.rename ρ) = [] ↔ a.compositeErrors typeName entry c = [] := by
  unfold Assembly.compositeErrors
  simp only [externalFields_rename, h.setting.roots.canonicalName settled, h.setting.isVersionTwo,
    List.append_eq_nil_iff, h.argumentErrors, h.implementationErrors, Composite.fields_rename, Table.isEmpty_map,
    ite_eq_left_iff, ite_eq_right_iff, reduceCtorEq, imp_false]

theorem typeErrors {typeName : String} (settled : ρ.Settles own typeName) (entry : TypeEntry) :
    a'.typeErrors (ρ typeName) (entry.rename ρ) = [] ↔ a.typeErrors typeName entry = [] := by
  obtain ⟨_, _, _, hasBase, shape⟩ := entry
  cases shape with
  | enum values => simp [Assembly.typeErrors, TypeEntry.rename, Shape.rename]
  | inputObject fields => simp [Assembly.typeErrors, TypeEntry.rename, Shape.rename]
  | interface c => exact h.compositeErrors settled _ c
  | object c => exact h.compositeErrors settled _ c
  | scalar => cases hasBase <;> simp [Assembly.typeErrors, TypeEntry.rename, Shape.rename]
  | union members =>
    have nonObjects : a'.nonObjectMembers (members.map ρ ρ.injective) =
        (a.nonObjectMembers members).map fun e => (ρ e.1, e.2) := by
      simp only [nonObjectMembers, OrderedSet.toList_map, List.filterMap_map, List.map_filterMap]
      refine List.filterMap_congr fun member _ => ?_
      simp only [Function.comp_apply, h.kind?]
      cases a.types.kind? member with
      | none => rfl
      | some kind => by_cases object : kind = .object <;> simp [object]
    simp [Assembly.typeErrors, TypeEntry.rename, Shape.rename, nonObjects]

theorem typeWarnings (typeName : String) (entry : TypeEntry) :
    a'.typeWarnings (ρ typeName) (entry.rename ρ) = [] ↔ a.typeWarnings typeName entry = [] := by
  unfold Assembly.typeWarnings
  rw [TypeEntry.composite?_rename]
  cases entry.composite? with
  | none => exact Iff.rfl
  | some c =>
    simp only [Option.map_some, externalFields_rename, h.setting.isVersionTwo]
    split <;> simp

/-! ## Names that are referred to -/

theorem isUnknown (typeName : String) : a'.isUnknown (ρ typeName) = a.isUnknown typeName := by
  have implied : ρ typeName ∈ Vocabulary.impliedTypes ↔ typeName ∈ Vocabulary.impliedTypes :=
    Renaming.mem_iff_of_keeps fun name member => ρ.keeps name (List.mem_append_left _ member)
  simp only [Assembly.isUnknown, implied, h.contains]

theorem undefinedAtRoot_of_rootName {operation : Operation}
    (same : (a'.rootName operation).1 = ρ (a.rootName operation).1) :
    a'.undefinedAtRoot operation = [] ↔ a.undefinedAtRoot operation = [] := by
  -- Only a root type that is not registered is asked whether it is declared, and the renamed one is registered.
  have declared : a.types.get? (a.rootName operation).1 = none →
      (a'.rootName operation).2 = (a.rootName operation).2 := by
    intro unregistered
    have other : operation ≠ own := by
      rintro rfl
      rw [h.rootName_own] at unregistered
      exact Table.get?_eq_none_iff.mp unregistered h.registered
    unfold Assembly.rootName
    rw [h.setting.roots.byOperation operation other]
    cases a.setting.roots.byOperation.get? operation <;> rfl
  unfold Assembly.undefinedAtRoot
  dsimp only
  rw [h.isShadowed, same, h.types, Table.get?_rekey, Option.map_map]
  split
  · rfl
  · cases found : a.types.get? (a.rootName operation).1 with
    | none =>
      simp only [Option.map_none, declared found]
      split <;> simp
    | some entry =>
      obtain ⟨_, _, _, _, shape⟩ := entry
      cases shape with
      | object c =>
        simp only [Option.map_some, Function.comp_apply, TypeEntry.rename, Shape.rename, Composite.fields_rename,
          Table.values_map, List.map_map, List.filter_eq_nil_iff, List.forall_mem_map, Field.type_rename,
          TypeRef.namedType_rename, h.isUnknown]
      | enum | inputObject | interface | scalar | union => rfl

theorem undefinedAtRoot :
    (∀ operation, a'.undefinedAtRoot operation = []) ↔ ∀ operation, a.undefinedAtRoot operation = [] := by
  refine h.forall_operations (fun _ => h.undefinedAtRoot_of_rootName) (fun operation yields => ?_)
    fun operation yields quiet => ?_
  · have absent := Table.get?_eq_none_iff.mpr (h.notMem_keys_of_yields yields)
    simp [Assembly.undefinedAtRoot, Assembly.isShadowed, rootName_of_yields yields, absent]
  · have known : a'.types.get? operation.defaultTypeName ≠ none := by
      rw [← yields.gained, h.types, Table.get?_rekey, ne_eq, Option.map_eq_none_iff, Table.get?_eq_none_iff, not_not]
      exact h.registered
    unfold Assembly.undefinedAtRoot at quiet ⊢
    dsimp only at quiet ⊢
    rw [h.isShadowed_own, h.rootName_own', yields.gained] at quiet
    rw [h.rootName_of_yields' yields]
    obtain ⟨entry, found⟩ := Option.ne_none_iff_exists'.mp known
    simp only [found, Option.map_some] at quiet ⊢
    obtain ⟨_, _, _, _, shape⟩ := entry
    cases shape with
    | object c => simpa [Assembly.isShadowed, h.rootName_of_yields' yields] using quiet
    | enum | inputObject | interface | scalar | union => exact ite_self _

theorem undefinedNames : a'.undefinedNames = [] ↔ a.undefinedNames = [] := by
  have none (names : List String) : (OrderedSet.ofList names).toList = [] ↔ names = [] := by
    simp only [List.eq_nil_iff_forall_not_mem, OrderedSet.mem_ofList]
  simp only [Assembly.undefinedNames, none, List.append_eq_nil_iff, List.flatMap_eq_nil_iff, Operation.mem_all,
    true_imp_iff, h.undefinedAtRoot, h.survey.referenced, OrderedSet.toList_map, List.filter_eq_nil_iff,
    List.forall_mem_map, h.isUnknown]

theorem unimplementedInterfaces : a'.unimplementedInterfaces = a.unimplementedInterfaces.map ρ := by
  simp only [Assembly.unimplementedInterfaces, h.survey.referenced, OrderedSet.toList_map, List.filter_map]
  refine congrArg _ (List.filter_congr fun name _ => ?_)
  simp only [Function.comp_apply, h.kind?, h.survey.concrete, ConcreteTypes.of_rename, OrderedSet.isEmpty_map]

/-! ## Field sets -/

theorem keys : List.Forall₂ (fun e e' => e'.1 = ρ e.1 ∧ List.Forall₂ (FieldSet.DeclaredKey.Mirrors ρ) e.2 e'.2)
    a.keys a'.keys := by
  unfold Assembly.keys
  rw [h.survey.keySets, Table.toList_rekey, List.map_map, List.forall₂_map_left_iff, List.forall₂_map_right_iff,
    h.types]
  exact List.forall₂_same.mpr fun e _ => ⟨rfl, FieldSet.keysOf_rename a.types e.1 e.2⟩

theorem keyFieldNames : a'.keyFieldNames = a.keyFieldNames.rekey ρ ρ.injective id := by
  unfold Assembly.keyFieldNames
  rw [h.survey.keySets, h.types]
  refine Table.filterMap_rekey a.survey.keySets fun name sets => ?_
  have selections := filterMap_of_forall₂ (FieldSet.keysOf_rename (ρ := ρ) a.types name sets)
    fun k k' same => same.selections?
  dsimp only [id]
  rw [selections]
  split <;> rfl

theorem declaredSelections :
    List.Forall₂ (FieldSet.DeclaredSelection.Mirrors ρ) a.declaredSelections a'.declaredSelections := by
  unfold Assembly.declaredSelections
  rw [h.survey.fieldSets, Table.toList_rekey, List.flatMap_map, h.types]
  generalize a.survey.fieldSets.toList = entries
  induction entries with
  | nil => exact .nil
  | cons e rest ih => exact List.rel_append (FieldSet.selectionsOn_rename a.types e.1 e.2) ih

theorem fieldSetErrors : a'.fieldSetErrors = [] ↔ a.fieldSetErrors = [] := by
  have keys : (a'.keys.flatMap fun e => FieldSet.keyErrors e.1 e.2) = [] ↔
      (a.keys.flatMap fun e => FieldSet.keyErrors e.1 e.2) = [] :=
    flatMap_eq_nil_of_forall₂ h.keys fun e e' same => FieldSet.keyErrors_rename same.2
  unfold Assembly.fieldSetErrors
  rw [List.append_eq_nil_iff, List.append_eq_nil_iff, h.survey.fieldSets, Table.toList_rekey, List.flatMap_map,
    h.types]
  refine and_congr keys ?_
  simp only [List.flatMap_eq_nil_iff, List.append_eq_nil_iff, id]
  refine forall₂_congr fun e _ => ?_
  exact and_congr (FieldSet.selectionErrors_rename (FieldSet.providedOn_rename a.types e.1 e.2))
    (FieldSet.selectionErrors_rename (FieldSet.requiredOn_rename a.types e.1 e.2))

theorem usedCoordinates : a'.usedCoordinates = a.usedCoordinates.map ρ := by
  -- A field is used for an interface, in a key or in another selection. Each of these is renamed by itself.
  have implemented : (a'.ownComposites.flatMap fun e =>
        (Implementation.requiredFields a'.types e.1 e.2.2).map (coordinates e.1)) =
      (a.ownComposites.flatMap fun e =>
        (Implementation.requiredFields a.types e.1 e.2.2).map (coordinates e.1)).map ρ := by
    rw [h.ownComposites, List.flatMap_map, List.map_flatMap, h.types]
    refine List.flatMap_congr fun e _ => ?_
    simp only [Implementation.requiredFields_rename, List.map_map, Function.comp_def, ρ.coordinates]
  have keyed : (a'.keys.flatMap fun e => e.2.flatMap (·.coordinates a'.types)) =
      (a.keys.flatMap fun e => e.2.flatMap (·.coordinates a.types)).map ρ :=
    flatMap_map_of_forall₂ h.keys fun e e' same => flatMap_map_of_forall₂ same.2 fun k k' same => by
      rw [h.types]
      exact same.coordinates a.types
  have selected : (a'.declaredSelections.flatMap (·.coordinates a'.types)) =
      (a.declaredSelections.flatMap (·.coordinates a.types)).map ρ :=
    flatMap_map_of_forall₂ h.declaredSelections fun d d' same => by
      rw [h.types]
      exact same.coordinates a.types
  simp only [Assembly.usedCoordinates, List.map_append]
  exact congrArg₂ (· ++ ·) (congrArg₂ (· ++ ·) implemented keyed) selected

theorem unusedExternals : a'.unusedExternals = a.unusedExternals.map ρ := by
  have used (path : String) : ρ path ∈ a'.usedCoordinates ↔ path ∈ a.usedCoordinates := by
    rw [h.usedCoordinates, List.mem_map_of_injective ρ.injective]
  simp only [Assembly.unusedExternals, h.survey.externals, OrderedSet.toList_map, List.filter_map, Function.comp_def,
    used]

/-! ## Diagnostics -/

theorem clientDirectiveErrors : a'.clientDirectiveErrors = a.clientDirectiveErrors := by
  have names (d : DirectiveDefinition) :
      (d.rename ρ).arguments.map ArgumentDefinition.name = d.arguments.map ArgumentDefinition.name := by
    simp [DirectiveDefinition.rename, ArgumentDefinition.rename]
  simp only [Assembly.clientDirectiveErrors, h.setting.customDirectives, Table.toList_map, List.filterMap_map]
  refine List.filterMap_congr fun e _ => ?_
  have locations : (e.2.rename ρ).executableLocations = e.2.executableLocations := rfl
  simp only [Function.comp_apply, clientDirective?, names, locations]
  by_cases used : e.2.executableLocations.isEmpty = true
  · simp only [used, if_true]
  · by_cases repeated : (OrderedSet.empty.repeated (e.2.arguments.map ArgumentDefinition.name)).isEmpty = true <;>
      simp only [used, repeated, Bool.false_eq_true, if_true, if_false]

theorem eventErrors : a'.eventErrors = [] ↔ a.eventErrors = [] := by
  have subject : a.eventSubject.Mirrors ρ own a'.eventSubject :=
    { roots := h.setting.roots
      types := h.types
      concrete := h.survey.concrete
      keySets := h.survey.keySets
      keyFieldNames := h.keyFieldNames
      applied := by simp only [Assembly.eventSubject, Setting.eventDirectives, h.setting.applied]
      settled := h.settled }
  unfold Assembly.eventErrors
  dsimp only
  rw [h.setting.isEventDriven]
  split
  · exact reported_congr subject.faults
  · exact Iff.rfl

theorem filterErrors : a'.filterErrors = [] ↔ a.filterErrors = [] := by
  simp only [Assembly.filterErrors, h.survey.filters, Table.toList_rekey, List.filterMap_map,
    List.filterMap_eq_nil_iff, Function.comp_apply, h.setting.isEventDriven, id]
  refine forall₂_congr fun e _ => ?_
  split <;> simp

theorem scopeErrors : a'.scopeErrors = [] ↔ a.scopeErrors = [] := by
  simp only [Assembly.scopeErrors, h.ledger.overLimit, OrderedSet.isEmpty_map]
  split <;> simp

/-- The one subgraph is valid where the other is. -/
theorem errors : a'.errors = [] ↔ a.errors = [] := by
  have types : (a'.ownTypes.flatMap fun e => a'.typeErrors e.1 e.2) = [] ↔
      (a.ownTypes.flatMap fun e => a.typeErrors e.1 e.2) = [] := by
    rw [h.ownTypes, List.flatMap_map, List.flatMap_eq_nil_iff, List.flatMap_eq_nil_iff]
    exact forall₂_congr fun e member => h.typeErrors (h.settled_of_own member) e.2
  simp only [Assembly.errors, List.append_eq_nil_iff]
  refine and_congr (and_congr (and_congr (and_congr (and_congr (and_congr (and_congr (and_congr (and_congr
    h.survey.errors h.scopeErrors) types) ?_) ?_) h.fieldSetErrors) ?_) h.eventErrors) h.filterErrors) ?_
  · simp only [List.flatMap_eq_nil_iff, Operation.mem_all, true_imp_iff, h.rootErrors]
  · simp only [List.map_eq_nil_iff, h.undefinedNames]
  · rw [h.clientDirectiveErrors]
  · rw [h.setting.isVersionTwo, h.unusedExternals]
    split <;> simp

theorem warnings : a'.warnings = [] ↔ a.warnings = [] := by
  have types : (a'.ownTypes.flatMap fun e => a'.typeWarnings e.1 e.2) = [] ↔
      (a.ownTypes.flatMap fun e => a.typeWarnings e.1 e.2) = [] := by
    simp only [h.ownTypes, List.flatMap_map, List.flatMap_eq_nil_iff, h.typeWarnings]
  simp only [Assembly.warnings, List.append_eq_nil_iff]
  refine and_congr (and_congr types ?_) ?_
  · simp only [h.unimplementedInterfaces, List.map_eq_nil_iff]
  · rw [h.setting.isVersionTwo, h.unusedExternals]
    split <;> simp

end Assembly.Mirrors

end Federation
