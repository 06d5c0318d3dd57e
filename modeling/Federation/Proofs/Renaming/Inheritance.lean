import Federation.Authorization.Inheritance
import Federation.Proofs.Renaming.Survey

/-!
# Inheritance of requirements in a renamed registry

What types pass on goes to canonical names, so it does not depend on their own. What interfaces pass on goes to the
own names of the types that implement them: it stays alike where those types keep their names.
-/

namespace Federation.Authorization

open Schema

variable {ρ : Renaming} {own : Operation}

theorem coveringInterfaces_rename (limit : Nat) (types : Registry) :
    coveringInterfaces limit (types.rename ρ) = (coveringInterfaces limit types).map ρ := by
  simp only [coveringInterfaces, Table.toList_rekey, List.filterMap_map, List.map_filterMap]
  refine List.filterMap_congr fun e _ => ?_
  simp only [Function.comp_apply, TypeEntry.kind_rename, TypeEntry.directives_rename]
  split <;> rfl

namespace Ledger.Mirrors

variable {l l' : Ledger} (h : l.Mirrors ρ l')

include h

/-- Steps that keep ledgers alike do so one after another. -/
theorem foldl {α : Type} {step step' : Ledger → α → Ledger} {items : List α}
    (one : ∀ x ∈ items, ∀ l l' : Ledger, l.Mirrors ρ l' → (step l x).Mirrors ρ (step' l' x)) :
    (items.foldl step l).Mirrors ρ (items.foldl step' l') := by
  induction items generalizing l l' with
  | nil => exact h
  | cons x rest ih =>
    exact ih (one x List.mem_cons_self l l' h) fun y member => one y (List.mem_cons_of_mem x member)

variable (limit : Nat)

theorem conjoinField (parent field canonicalParent : String) (r : Requirement) :
    (l.conjoinField limit (coordinates parent field) canonicalParent field r).Mirrors ρ
      (l'.conjoinField limit (coordinates (ρ parent) field) canonicalParent field r) := by
  have overLimit : (l'.conjoinField limit (coordinates (ρ parent) field) canonicalParent field r).overLimit =
      (l.conjoinField limit (coordinates parent field) canonicalParent field r).overLimit.map ρ ρ.injective := by
    simp only [Ledger.conjoinField, h.records, h.overLimit, ← ρ.coordinates]
    split
    · rfl
    · exact OrderedSet.insert_map l.overLimit (coordinates parent field)
  exact { h with overLimit, records := by simp only [Ledger.conjoinField, h.records] }

theorem coverFields (typeName canonicalName : String) (fields : List String) (r : Requirement) :
    (l.coverFields limit typeName canonicalName fields r).Mirrors ρ
      (l'.coverFields limit (ρ typeName) canonicalName fields r) := by
  unfold Ledger.coverFields
  have covered : Ledger.Mirrors ρ
      { l with records := l.records.update canonicalName fun record =>
          { record with coversFields := true, requirement := r } }
      { l' with records := l'.records.update canonicalName fun record =>
          { record with coversFields := true, requirement := r } } :=
    { h with records := by rw [h.records] }
  exact covered.foldl fun field _ l l' same => same.conjoinField limit typeName field canonicalName r

theorem inheritFromType {roots roots' : RootTypes} (alike : roots.Mirrors ρ own roots') {typeName : String}
    (settled : ρ.Settles own typeName) (entry : TypeEntry) :
    (l.inheritFromType limit roots typeName entry).Mirrors ρ
      (l'.inheritFromType limit roots' (ρ typeName) (entry.rename ρ)) := by
  unfold Ledger.inheritFromType
  rw [TypeEntry.composite?_rename, TypeEntry.directives_rename]
  cases entry.composite? with
  | none => exact h
  | some composite =>
    simp only [Option.map_some, alike.canonicalName settled, Composite.fields_rename, Table.keys_map]
    split
    · exact h
    · refine { h with overLimit := ?_ }
      rw [h.overLimit]
      exact OrderedSet.insert_map l.overLimit typeName
    · exact h.coverFields limit typeName _ _ _

theorem inheritFields (fields : List (String × Requirement)) {concreteName : String}
    (stays : ρ concreteName = concreteName) :
    (l.inheritFields limit fields concreteName).Mirrors ρ (l'.inheritFields limit fields (ρ concreteName)) := by
  unfold Ledger.inheritFields
  rw [stays]
  have touched : Ledger.Mirrors ρ { l with records := l.records.update concreteName id }
      { l' with records := l'.records.update concreteName id } := { h with records := by rw [h.records] }
  refine touched.foldl fun field _ l l' same => ?_
  have one := same.conjoinField limit concreteName field.1 concreteName field.2
  rwa [stays] at one

theorem inheritFromInterface (concrete : ConcreteTypes) {interfaceName : String}
    (stays : ρ interfaceName = interfaceName) (free : ∀ name ∈ (concrete.of interfaceName).toList, ρ name = name) :
    (l.inheritFromInterface limit concrete interfaceName).Mirrors ρ
      (l'.inheritFromInterface limit (concrete.rename ρ) (ρ interfaceName)) := by
  unfold Ledger.inheritFromInterface
  rw [ConcreteTypes.of_rename, h.records, stays]
  cases l.records.get? interfaceName with
  | none => exact h
  | some record =>
    dsimp only [OrderedSet.toList_map]
    rw [List.foldl_map]
    exact h.foldl fun name member l l' same => same.inheritFields limit record.fields.toList (free name member)

theorem inheritFromLeaf (heir : Heir) :
    (l.inheritFromLeaf limit heir).Mirrors ρ (l'.inheritFromLeaf limit (heir.rename ρ)) := by
  have leaf : l'.leafTypes.contains (ρ heir.namedType) = l.leafTypes.contains heir.namedType := by
    rw [Bool.eq_iff_iff, OrderedSet.contains_iff, OrderedSet.contains_iff, h.leafTypes]
    exact Renaming.mem_iff_of_keeps h.settled
  unfold Ledger.inheritFromLeaf
  simp only [Heir.rename, leaf]
  split
  · next known =>
    rw [h.settled heir.namedType (OrderedSet.contains_iff.mp known), h.records]
    cases l.records.get? heir.namedType with
    | none => exact h
    | some record => exact h.conjoinField limit heir.parent heir.field heir.canonicalParent record.requirement
  · exact h

theorem inheritFromInterfaces {types : Registry} (concrete : ConcreteTypes)
    (stays : ∀ interfaceName ∈ coveringInterfaces limit types, ρ interfaceName = interfaceName ∧
      ∀ name ∈ (concrete.of interfaceName).toList, ρ name = name) :
    ((coveringInterfaces limit types).foldl (Ledger.inheritFromInterface limit concrete) l).Mirrors ρ
      ((coveringInterfaces limit (types.rename ρ)).foldl
        (Ledger.inheritFromInterface limit (concrete.rename ρ)) l') := by
  rw [coveringInterfaces_rename, List.foldl_map]
  exact h.foldl fun interfaceName member l l' same =>
    same.inheritFromInterface limit concrete (stays interfaceName member).1 (stays interfaceName member).2

theorem inheritFromLeaves :
    (l.heirs.foldl (Ledger.inheritFromLeaf limit) l).Mirrors ρ
      (l'.heirs.foldl (Ledger.inheritFromLeaf limit) l') := by
  rw [h.heirs, List.foldl_map]
  exact h.foldl fun heir _ l l' same => same.inheritFromLeaf limit heir

end Ledger.Mirrors

/-- Where all types with a requirement from an interface keep their names, so do all records. -/
theorem Ledger.Mirrors.consolidate {l l' : Ledger} (h : l.Mirrors ρ l') (limit : Nat) {roots roots' : RootTypes}
    (alike : roots.Mirrors ρ own roots') {types : Registry} (concrete : ConcreteTypes)
    (settled : ∀ name ∈ types.keys, ρ.Settles own name)
    (stays : ∀ interfaceName ∈ coveringInterfaces limit types, ρ interfaceName = interfaceName ∧
      ∀ name ∈ (concrete.of interfaceName).toList, ρ name = name) :
    (l.consolidate limit roots types concrete).Mirrors ρ
      (l'.consolidate limit roots' (types.rename ρ) (concrete.rename ρ)) := by
  have fromTypes : Ledger.Mirrors ρ (types.toList.foldl (fun l e => l.inheritFromType limit roots e.1 e.2) l)
      ((types.rename ρ).toList.foldl (fun l e => l.inheritFromType limit roots' e.1 e.2) l') := by
    rw [Table.toList_rekey, List.foldl_map]
    exact h.foldl fun e member l l' same =>
      same.inheritFromType limit alike (settled e.1 (List.mem_map_of_mem member)) e.2
  have fromInterfaces := fromTypes.inheritFromInterfaces limit concrete stays
  have fromLeaves := fromInterfaces.inheritFromLeaves limit
  exact { fromLeaves with heirs := rfl }

end Federation.Authorization
