import Federation.Proofs.Renaming.Setting

/-!
# Event-driven subgraphs with renamed types

The shape of an event-driven subgraph depends on the names of the result of publishing and of the configuration of a
stream, which stay, and on no other.
-/

namespace Federation

open Schema

variable {ρ : Renaming} {own : Operation}

theorem reported_congr {α β γ δ : Type} {found : List α} {found' : List β} {report : γ} {report' : δ}
    (same : found' = [] ↔ found = []) :
    (if found'.isEmpty then [] else [report']) = [] ↔ (if found.isEmpty then [] else [report]) = [] := by
  rw [reported_eq_nil_iff, reported_eq_nil_iff, same]

/-- A named type that is kept is the type of a field just where it is that of the renamed field. -/
theorem Schema.TypeRef.rename_eq_named_iff {t : TypeRef} {name : String} {nonNull : Bool} (keeps : ρ name = name) :
    t.rename ρ = .named name nonNull ↔ t = .named name nonNull := by
  have kept : (TypeRef.named name nonNull).rename ρ = .named name nonNull := by rw [rename, keeps]
  conv_lhs => rw [← kept]
  exact (rename_injective ρ.injective).eq_iff

namespace Event

theorem reserved_iff (typeName : String) : ρ typeName ∈ [Vocabulary.publishResult, Vocabulary.streamInput] ↔
    typeName ∈ [Vocabulary.publishResult, Vocabulary.streamInput] :=
  Renaming.mem_iff_of_keeps fun name member => ρ.keeps name (by revert member; revert name; decide)

/-- Event-driven subgraphs before and after a root type is renamed. -/
structure Subject.Mirrors (ρ : Renaming) (own : Operation) (s s' : Subject) : Prop where
  roots : s.roots.Mirrors ρ own s'.roots
  types : s'.types = s.types.rename ρ
  concrete : s'.concrete = s.concrete.rename ρ
  keySets : s'.keySets = s.keySets.rekey ρ ρ.injective id
  keyFieldNames : s'.keyFieldNames = s.keyFieldNames.rekey ρ ρ.injective id
  applied : s'.applied = s.applied
  settled : ∀ name ∈ s.types.keys, ρ.Settles own name

namespace Subject.Mirrors

variable {s s' : Subject} (h : s.Mirrors ρ own s')

include h

theorem rootFields : s'.rootFields = s.rootFields.map fun e => (e.1, ρ e.2.1, e.2.2.1, e.2.2.2.rename ρ) := by
  simp only [Subject.rootFields, h.types, Table.toList_rekey, List.flatMap_map, List.map_flatMap]
  refine List.flatMap_congr fun e member => ?_
  obtain ⟨name, entry⟩ := e
  have settled := h.settled name (List.mem_map_of_mem member)
  simp only [reserved_iff, h.roots.operation? settled]
  split
  · rfl
  · obtain ⟨_, _, _, _, shape⟩ := entry
    cases shape with
    | object c =>
      simp only [TypeEntry.rename, Shape.rename]
      cases s.roots.operation? name with
      | none => rfl
      | some operation => simp [List.map_map, Function.comp_def]
    | enum | inputObject | interface | scalar | union => rfl

theorem entityObjects : s'.entityObjects = s.entityObjects.map fun e => (ρ e.1, e.2.rename ρ) := by
  simp only [Subject.entityObjects, h.types, Table.toList_rekey, List.filterMap_map, List.map_filterMap]
  refine List.filterMap_congr fun e member => ?_
  obtain ⟨name, entry⟩ := e
  have settled := h.settled name (List.mem_map_of_mem member)
  simp only [Function.comp_apply, reserved_iff]
  split
  · rfl
  · obtain ⟨_, _, _, _, shape⟩ := entry
    cases shape with
    | object c =>
      simp only [TypeEntry.rename, Shape.rename, h.roots.isRootName settled]
      split <;> rfl
    | enum | inputObject | interface | scalar | union => rfl

theorem keyedObjects : s'.keyedObjects = s.keyedObjects.map fun e => (ρ e.1, e.2.1.rename ρ, e.2.2) := by
  simp only [Subject.keyedObjects, h.entityObjects, h.keyFieldNames, List.filterMap_map, List.map_filterMap]
  refine List.filterMap_congr fun e _ => ?_
  simp only [Function.comp_apply, Table.get?_rekey]
  cases s.keyFieldNames.get? e.1 <;> rfl

theorem leadsToEntity (typeName : String) : s'.leadsToEntity (ρ typeName) = s.leadsToEntity typeName := by
  unfold Subject.leadsToEntity
  rw [h.concrete, h.types, Table.get?_rekey]
  cases s.concrete.get? typeName with
  | none => exact s.types.isEntity_rename typeName
  | some names => simp [List.any_map, Function.comp_def]

theorem isPublishResultValid : s'.isPublishResultValid = s.isPublishResultValid := by
  have found : s'.types.get? Vocabulary.publishResult =
      (s.types.get? Vocabulary.publishResult).map (TypeEntry.rename ρ) := by
    rw [h.types, Registry.get?_rename_of_keeps s.types (ρ.keeps _ (by decide))]
  unfold Subject.isPublishResultValid
  rw [found]
  cases s.types.get? Vocabulary.publishResult with
  | none => rfl
  | some entry =>
    obtain ⟨_, _, _, _, shape⟩ := entry
    cases shape with
    | object c =>
      simp only [Option.map_some, TypeEntry.rename, Shape.rename, Composite.fields_rename, Table.size_map,
        Table.get?_map, Option.any_map]
      refine congrArg (_ && Option.any · _) (funext fun field => ?_)
      have boolean : field.type.rename ρ = .named "Boolean" true ↔ field.type = .named "Boolean" true :=
        TypeRef.rename_eq_named_iff (ρ.keeps _ (by decide))
      simp [boolean]
    | enum | inputObject | interface | scalar | union => rfl

omit h in
theorem isStreamInput_rename (entry : TypeEntry) :
    Subject.isStreamInput (entry.rename ρ) = Subject.isStreamInput entry := by
  obtain ⟨_, _, _, _, shape⟩ := entry
  cases shape with
  | inputObject fields =>
    have text (v : InputValue) : (v.rename ρ).type = .named "String" true ↔ v.type = .named "String" true :=
      TypeRef.rename_eq_named_iff (ρ.keeps _ (by decide))
    simp [Subject.isStreamInput, TypeEntry.rename, Shape.rename, Table.get?_map, Option.any_map, text]
  | enum | interface | object | scalar | union => rfl

theorem streamInputFaults : s'.streamInputFaults = [] ↔ s.streamInputFaults = [] := by
  have found : s'.types.get? Vocabulary.streamInput =
      (s.types.get? Vocabulary.streamInput).map (TypeEntry.rename ρ) := by
    rw [h.types, Registry.get?_rename_of_keeps s.types (ρ.keeps _ (by decide))]
  unfold Subject.streamInputFaults
  rw [h.applied, found]
  cases s.types.get? Vocabulary.streamInput with
  | none => rfl
  | some entry =>
    simp only [Option.map_some, isStreamInput_rename]

theorem rootFieldFaults :
    s'.rootFields.filterMap Subject.rootFieldFault? = [] ↔ s.rootFields.filterMap Subject.rootFieldFault? = [] := by
  simp only [h.rootFields, List.filterMap_map, List.filterMap_eq_nil_iff, Function.comp_apply]
  refine forall₂_congr fun e _ => ?_
  obtain ⟨operation, typeName, name, field⟩ := e
  simp only [Subject.rootFieldFault?, Field.directives_rename]
  by_cases unbound : (Vocabulary.eventDirectives.filter field.directives.contains).isEmpty = true
  · simp only [unbound, if_true, reduceCtorEq]
  · by_cases fine : ((Vocabulary.eventDirectives.filter field.directives.contains).filter
        (· ∉ permitted operation)).isEmpty = true <;>
      simp only [unbound, fine, if_true, Bool.false_eq_true, if_false, reduceCtorEq]

theorem mutationResponseFaults : s'.rootFields.filterMap Subject.mutationResponseFault? = [] ↔
    s.rootFields.filterMap Subject.mutationResponseFault? = [] := by
  simp only [h.rootFields, List.filterMap_map, List.filterMap_eq_nil_iff, Function.comp_apply]
  refine forall₂_congr fun e _ => ?_
  obtain ⟨operation, typeName, name, field⟩ := e
  have published : field.type.rename ρ = .named Vocabulary.publishResult true ↔
      field.type = .named Vocabulary.publishResult true := TypeRef.rename_eq_named_iff (ρ.keeps _ (by decide))
  simp [Subject.mutationResponseFault?, published]

theorem rootResponseFaults : s'.rootFields.filterMap s'.rootResponseFault? = [] ↔
    s.rootFields.filterMap s.rootResponseFault? = [] := by
  simp only [h.rootFields, List.filterMap_map, List.filterMap_eq_nil_iff, Function.comp_apply]
  refine forall₂_congr fun e _ => ?_
  obtain ⟨operation, typeName, name, field⟩ := e
  simp [Subject.rootResponseFault?, h.leadsToEntity]

theorem unresolvableKeys : s'.unresolvableKeys = [] ↔ s.unresolvableKeys = [] := by
  simp only [Subject.unresolvableKeys, h.keyedObjects, List.flatMap_map, List.flatMap_eq_nil_iff, List.map_eq_nil_iff]
  refine forall₂_congr fun e _ => ?_
  have sets : s'.keySets.getD (ρ e.1) .empty = s.keySets.getD e.1 .empty := by
    rw [h.keySets]
    exact Table.getD_rekey (g := id) s.keySets e.1 .empty
  rw [sets]

theorem ownKeyFields : s'.ownKeyFields = [] ↔ s.ownKeyFields = [] := by
  simp only [Subject.ownKeyFields, h.keyedObjects, List.flatMap_map, List.flatMap_eq_nil_iff, List.map_eq_nil_iff]
  refine forall₂_congr fun e _ => ?_
  simp [List.filter_map, Function.comp_def]

theorem fieldsOutsideKeys : s'.fieldsOutsideKeys = [] ↔ s.fieldsOutsideKeys = [] := by
  simp only [Subject.fieldsOutsideKeys, h.keyedObjects, List.flatMap_map, List.flatMap_eq_nil_iff,
    List.map_eq_nil_iff, Composite.fields_rename, Table.keys_map]

theorem typesWithoutKey : s'.typesWithoutKey = [] ↔ s.typesWithoutKey = [] := by
  simp [Subject.typesWithoutKey, h.entityObjects, h.keyFieldNames, List.filter_map, Function.comp_def]

theorem faults : s'.faults = [] ↔ s.faults = [] := by
  simp only [Subject.faults, List.append_eq_nil_iff, h.isPublishResultValid, h.streamInputFaults]
  refine and_congr ?_ (reported_congr h.typesWithoutKey)
  refine and_congr ?_ (reported_congr h.fieldsOutsideKeys)
  refine and_congr ?_ (reported_congr h.ownKeyFields)
  refine and_congr ?_ (reported_congr h.unresolvableKeys)
  refine and_congr ?_ (reported_congr h.rootResponseFaults)
  refine and_congr ?_ (reported_congr h.mutationResponseFaults)
  exact and_congr Iff.rfl (reported_congr h.rootFieldFaults)

end Subject.Mirrors

end Event

end Federation
