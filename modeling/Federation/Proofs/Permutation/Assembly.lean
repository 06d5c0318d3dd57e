import Federation.Proofs.Permutation.Event
import Federation.Proofs.Permutation.Walk

/-!
# The assembly of definitions in another order

What is assembled from surveys that know the same is the same but for its order, and so is what is reported.
-/

namespace Federation

open Schema
open Authorization

theorem Survey.SameUpToOrder.of_concrete {s s' : Survey} (same : s.SameUpToOrder s') (abstractName : String) :
    (s'.concrete.of abstractName).SameMembers (s.concrete.of abstractName) := by
  unfold ConcreteTypes.of Table.getD
  rcases same.concrete.cases abstractName with ⟨none, none'⟩ | ⟨names, names', found, found', members⟩
  · rw [none, none']
    exact .refl _
  · rw [found, found']
    exact members.symm

/-- Two subgraphs that were surveyed to their ends and know the same. -/
structure Assembly.SameUpToOrder (a b : Assembly) : Prop where
  setting : a.setting.SameUpToOrder b.setting
  survey : a.survey.SameUpToOrder b.survey
  ledger : b.ledger.accounts? = a.ledger.accounts?

namespace Assembly.SameUpToOrder

variable {a b : Assembly} (same : a.SameUpToOrder b)

include same

theorem types : b.types.get? = a.types.get? := same.survey.types

theorem of_concrete (abstractName : String) :
    (b.survey.concrete.of abstractName).SameMembers (a.survey.concrete.of abstractName) :=
  same.survey.of_concrete abstractName

theorem isSupportType : b.isSupportType = a.isSupportType := by
  funext typeName
  rw [Assembly.isSupportType, same.setting.isVersionTwo, Assembly.isSupportType]

theorem ownTypes : b.ownTypes.Perm a.ownTypes := by
  unfold Assembly.ownTypes
  rw [same.isSupportType]
  exact (Table.perm_of_get? same.types).filter _

theorem ownComposites : b.ownComposites.Perm a.ownComposites := same.ownTypes.filterMap _

/-! ## Field sets -/

theorem keys : b.keys.Perm a.keys := by
  unfold Assembly.keys
  rw [FieldSet.keysOf_congr same.types]
  exact (Table.perm_of_get? same.survey.keySets).map _

theorem keyFieldNames : b.keyFieldNames.get? = a.keyFieldNames.get? := by
  funext typeName
  rw [Assembly.keyFieldNames, Table.get?_filterMap, same.survey.keySets, FieldSet.keysOf_congr same.types,
    Assembly.keyFieldNames, Table.get?_filterMap]

theorem declaredSelections : b.declaredSelections.Perm a.declaredSelections := by
  unfold Assembly.declaredSelections
  rw [FieldSet.selectionsOn_congr same.types]
  exact (Table.perm_of_get? same.survey.fieldSets).flatMap_right _

theorem usedCoordinates : b.usedCoordinates.Perm a.usedCoordinates := by
  unfold Assembly.usedCoordinates
  rw [Implementation.requiredFields_congr same.types]
  refine ((same.ownComposites.flatMap_right _).append ?_).append ?_
  · have coordinates : FieldSet.DeclaredKey.coordinates b.types = FieldSet.DeclaredKey.coordinates a.types :=
      funext (FieldSet.DeclaredKey.coordinates_congr same.types)
    rw [coordinates]
    exact same.keys.flatMap_right _
  · have coordinates :
        FieldSet.DeclaredSelection.coordinates b.types = FieldSet.DeclaredSelection.coordinates a.types :=
      funext (FieldSet.DeclaredSelection.coordinates_congr same.types)
    rw [coordinates]
    exact same.declaredSelections.flatMap_right _

theorem unusedExternals : b.unusedExternals.Perm a.unusedExternals := by
  unfold Assembly.unusedExternals
  simp only [same.usedCoordinates.mem_iff]
  exact same.survey.externals.symm.filter _

theorem fieldSetErrors : b.fieldSetErrors.Perm a.fieldSetErrors := by
  unfold Assembly.fieldSetErrors
  rw [FieldSet.providedOn_congr same.types, FieldSet.requiredOn_congr same.types]
  exact (same.keys.flatMap_right _).append ((Table.perm_of_get? same.survey.fieldSets).flatMap_right _)

/-! ## Types -/

theorem isConcrete : b.survey.concrete.isConcrete = a.survey.concrete.isConcrete := by
  funext abstractName
  exact (same.of_concrete abstractName).contains

theorem compositeErrors : b.compositeErrors = a.compositeErrors := by
  have outputArguments : b.outputArguments = a.outputArguments := by
    funext f
    rw [Assembly.outputArguments, Registry.kind?_congr same.types, Assembly.outputArguments]
  have argumentErrors : b.argumentErrors = a.argumentErrors := by
    funext typeName c
    rw [Assembly.argumentErrors, outputArguments, Assembly.argumentErrors]
  have implementationErrors : b.implementationErrors = a.implementationErrors := by
    funext typeName entry c
    rw [Assembly.implementationErrors, Implementation.nonInterfaces_congr same.types,
      Implementation.mismatches_congr same.types same.isConcrete, Implementation.undefinedNames_congr same.types,
      Implementation.implementsItself_congr same.types, Assembly.implementationErrors]
  funext typeName entry c
  rw [Assembly.compositeErrors, argumentErrors, implementationErrors, same.setting.roots, same.setting.isVersionTwo,
    Assembly.compositeErrors]

theorem typeErrors : b.typeErrors = a.typeErrors := by
  have nonObjectMembers : b.nonObjectMembers = a.nonObjectMembers := by
    funext members
    rw [Assembly.nonObjectMembers, Registry.kind?_congr same.types, Assembly.nonObjectMembers]
  funext typeName entry
  rw [Assembly.typeErrors, same.compositeErrors, nonObjectMembers, Assembly.typeErrors]

theorem typeWarnings : b.typeWarnings = a.typeWarnings := by
  funext typeName entry
  rw [Assembly.typeWarnings, same.setting.isVersionTwo, same.setting.subgraph, Assembly.typeWarnings]

/-! ## Root types -/

theorem rootName : b.rootName = a.rootName := by
  funext operation
  rw [Assembly.rootName, same.setting.roots, Assembly.rootName]

theorem isShadowed : b.isShadowed = a.isShadowed := by
  funext operation
  rw [Assembly.isShadowed, same.rootName, Table.contains_congr same.types, Assembly.isShadowed]

theorem definedRoots : b.definedRoots = a.definedRoots := by
  rw [Assembly.definedRoots, same.isShadowed, same.rootName, Table.contains_congr same.types, Assembly.definedRoots]

theorem rootErrors : b.rootErrors = a.rootErrors := by
  funext operation
  rw [Assembly.rootErrors, same.rootName, same.isShadowed, Registry.kind?_congr same.types, Assembly.rootErrors]

theorem isUnknown : b.isUnknown = a.isUnknown := by
  funext typeName
  rw [Assembly.isUnknown, Table.contains_congr same.types, Assembly.isUnknown]

theorem undefinedNames : b.undefinedNames = [] ↔ a.undefinedNames = [] := by
  have undefinedAtRoot : b.undefinedAtRoot = a.undefinedAtRoot := by
    funext operation
    rw [Assembly.undefinedAtRoot, same.rootName, same.isShadowed, same.types, same.isUnknown,
      Assembly.undefinedAtRoot]
  have members : ∀ name, name ∈ b.undefinedNames ↔ name ∈ a.undefinedNames := by
    intro name
    simp only [Assembly.undefinedNames, OrderedSet.mem_ofList, List.mem_append, List.mem_filter, undefinedAtRoot,
      same.isUnknown, same.survey.referenced.mem_iff]
  simp only [List.eq_nil_iff_forall_not_mem, members]

theorem unimplementedInterfaces : b.unimplementedInterfaces.Perm a.unimplementedInterfaces := by
  have implemented : ∀ name, (b.survey.concrete.of name).isEmpty = (a.survey.concrete.of name).isEmpty := by
    intro name
    rw [Bool.eq_iff_iff, OrderedSet.isEmpty_iff, OrderedSet.isEmpty_iff, eq_nil_iff_of_perm (same.of_concrete name)]
  unfold Assembly.unimplementedInterfaces
  simp only [implemented, Registry.kind?_congr same.types]
  exact same.survey.referenced.symm.filter _

/-! ## Directives and events -/

theorem clientDirectiveErrors : b.clientDirectiveErrors.Perm a.clientDirectiveErrors :=
  (Table.perm_of_get? same.setting.customDirectives).filterMap _

theorem filterErrors : b.filterErrors.Perm a.filterErrors := by
  unfold Assembly.filterErrors
  rw [same.setting.isEventDriven]
  exact (Table.perm_of_get? same.survey.filters).filterMap _

theorem eventSubject : a.eventSubject.SameUpToOrder b.eventSubject where
  roots := same.setting.roots
  types := same.types
  concrete := same.survey.concrete
  keySets := same.survey.keySets
  keyFieldNames := same.keyFieldNames
  applied := by
    funext name
    rw [Bool.eq_iff_iff, OrderedSet.contains_iff, OrderedSet.contains_iff]
    exact same.setting.mem_eventDirectives name

theorem eventErrors : b.eventErrors = [] ↔ a.eventErrors = [] := by
  unfold Assembly.eventErrors
  rw [same.setting.isEventDriven]
  split
  · exact reported_congr same.eventSubject.faults
  · exact Iff.rfl

/-! ## Everything that is reported -/

theorem scopeErrors : b.scopeErrors = [] ↔ a.scopeErrors = [] := by
  have within : b.ledger.overLimit.isEmpty = a.ledger.overLimit.isEmpty := by
    have known (l : Ledger) : l.accounts?.isSome = l.overLimit.isEmpty := by
      unfold Ledger.accounts?
      split <;> simp_all
    rw [← known, same.ledger, known]
  unfold Assembly.scopeErrors
  rw [within]
  split <;> simp

/-- What the whole shows is an error or not, whatever the order. -/
theorem errors (survey : a.survey.errors = []) (survey' : b.survey.errors = []) : b.errors = [] ↔ a.errors = [] := by
  have ownTypes := eq_nil_iff_of_perm (same.ownTypes.flatMap_right fun e => a.typeErrors e.1 e.2)
  have unused := eq_nil_iff_of_perm (same.unusedExternals.map Error.unusedExternal)
  simp only [Assembly.errors, List.append_eq_nil_iff, survey, survey', same.scopeErrors, same.typeErrors, ownTypes,
    same.rootErrors, List.map_eq_nil_iff, same.undefinedNames, eq_nil_iff_of_perm same.fieldSetErrors,
    eq_nil_iff_of_perm same.clientDirectiveErrors, same.eventErrors, eq_nil_iff_of_perm same.filterErrors,
    same.setting.isVersionTwo]
  refine and_congr_right fun _ => ?_
  split
  · exact unused
  · exact Iff.rfl

theorem warnings : b.warnings.Perm a.warnings := by
  unfold Assembly.warnings
  rw [same.typeWarnings, same.setting.subgraph, same.setting.isVersionTwo]
  refine ((same.ownTypes.flatMap_right _).append (same.unimplementedInterfaces.map _)).append ?_
  split
  · exact .refl _
  · exact same.unusedExternals.map _

end Assembly.SameUpToOrder

end Federation
