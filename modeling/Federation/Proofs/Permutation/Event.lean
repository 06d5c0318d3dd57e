import Federation.Proofs.Permutation.Registry
import Federation.Proofs.Renaming.Event

/-!
# Event-driven subgraphs in another order

Whether an event-driven subgraph has a fault does not depend on the order of its types, keys and concrete types.
-/

namespace Federation

open Schema

theorem eq_nil_iff_of_perm {α : Type} {xs ys : List α} (perm : xs.Perm ys) : xs = [] ↔ ys = [] := by
  rw [← List.length_eq_zero_iff, perm.length_eq, List.length_eq_zero_iff]

namespace Event.Subject

/-- Event-driven subgraphs that have the same in another order. -/
structure SameUpToOrder (s s' : Subject) : Prop where
  roots : s'.roots = s.roots
  types : s'.types.get? = s.types.get?
  concrete : Table.Agree OrderedSet.SameMembers s.concrete s'.concrete
  keySets : s'.keySets.get? = s.keySets.get?
  keyFieldNames : s'.keyFieldNames.get? = s.keyFieldNames.get?
  applied : s'.applied.contains = s.applied.contains

namespace SameUpToOrder

variable {s s' : Subject} (same : s.SameUpToOrder s')

include same

theorem rootFields : s'.rootFields.Perm s.rootFields := by
  unfold Subject.rootFields
  rw [same.roots]
  exact (Table.perm_of_get? same.types).flatMap_right _

theorem entityObjects : s'.entityObjects.Perm s.entityObjects := by
  unfold Subject.entityObjects
  rw [same.roots]
  exact (Table.perm_of_get? same.types).filterMap _

theorem keyedObjects : s'.keyedObjects.Perm s.keyedObjects := by
  unfold Subject.keyedObjects
  rw [same.keyFieldNames]
  exact same.entityObjects.filterMap _

theorem leadsToEntity : s'.leadsToEntity = s.leadsToEntity := by
  funext typeName
  unfold Subject.leadsToEntity
  rw [Registry.isEntity_congr same.types]
  rcases same.concrete.cases typeName with ⟨none, none'⟩ | ⟨names, names', found, found', members⟩
  · rw [none, none']
  · rw [found, found']
    exact (List.Perm.any_eq members).symm

theorem isPublishResultValid : s'.isPublishResultValid = s.isPublishResultValid := by
  rw [Subject.isPublishResultValid, same.types, Subject.isPublishResultValid]

theorem streamInputFaults : s'.streamInputFaults = s.streamInputFaults := by
  rw [Subject.streamInputFaults, same.types, same.applied, Subject.streamInputFaults]

theorem unresolvableKeys : s'.unresolvableKeys.Perm s.unresolvableKeys := by
  have sets : s'.keySets.getD = s.keySets.getD := Table.getD_congr same.keySets
  unfold Subject.unresolvableKeys
  rw [sets]
  exact same.keyedObjects.flatMap_right _

theorem typesWithoutKey : s'.typesWithoutKey.Perm s.typesWithoutKey := by
  unfold Subject.typesWithoutKey
  rw [Table.contains_congr same.keyFieldNames]
  exact (same.entityObjects.map _).filter _

/-- Subgraphs that have the same in another order are both in shape or neither. -/
theorem faults : s'.faults = [] ↔ s.faults = [] := by
  have rootFieldFaults := same.rootFields.filterMap Subject.rootFieldFault?
  have mutationFaults := same.rootFields.filterMap Subject.mutationResponseFault?
  have responseFault? : s'.rootResponseFault? = s.rootResponseFault? := by
    funext e
    simp only [Subject.rootResponseFault?, same.leadsToEntity]
  have responseFaults :
      (s'.rootFields.filterMap s'.rootResponseFault?).Perm (s.rootFields.filterMap s.rootResponseFault?) := by
    rw [responseFault?]
    exact same.rootFields.filterMap _
  have ownKeyFields : s'.ownKeyFields.Perm s.ownKeyFields := same.keyedObjects.flatMap_right _
  have outsideKeys : s'.fieldsOutsideKeys.Perm s.fieldsOutsideKeys := same.keyedObjects.flatMap_right _
  simp only [Subject.faults, List.append_eq_nil_iff, same.isPublishResultValid, same.streamInputFaults]
  refine and_congr ?_ (reported_congr (eq_nil_iff_of_perm same.typesWithoutKey))
  refine and_congr ?_ (reported_congr (eq_nil_iff_of_perm outsideKeys))
  refine and_congr ?_ (reported_congr (eq_nil_iff_of_perm ownKeyFields))
  refine and_congr ?_ (reported_congr (eq_nil_iff_of_perm same.unresolvableKeys))
  refine and_congr ?_ (reported_congr (eq_nil_iff_of_perm responseFaults))
  refine and_congr ?_ (reported_congr (eq_nil_iff_of_perm mutationFaults))
  exact and_congr Iff.rfl (reported_congr (eq_nil_iff_of_perm rootFieldFaults))

end SameUpToOrder

end Event.Subject

end Federation
