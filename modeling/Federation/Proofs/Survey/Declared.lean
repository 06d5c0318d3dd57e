import Federation.Proofs.Survey.Coherence

/-!
# Requirements that a survey records

Before inheritance the requirement of a field, an enum or a scalar is what its declarations ask for. Only
registered fields and types have one.
-/

namespace Federation

open Schema
open Authorization (Host Requirement Ledger Declared)

/-- The hosts of requirements in a text, with the directives on them, in order. -/
def declarations (setting : Setting) (statements : List Statement) : List (Host × List Directive) :=
  (Look.all statements).flatMap (Look.declarations setting)

namespace Survey.Coherent

variable {setting : Setting} {statements : List Statement} {s : Survey}

theorem fieldAt (h : Coherent setting (Look.all statements) s) (typeName name : String) :
    s.ledger.records.fieldAt typeName name =
      .gathered (Ledger.asked setting.maxOrScopes (Host.isField typeName name)
        (declarations setting statements)) := by
  rw [h.declared]
  exact (Ledger.fieldAt_declareAll setting.maxOrScopes .empty _ typeName name).trans
    (Requirement.none_accumulate _)

theorem typeAt (h : Coherent setting (Look.all statements) s) (typeName : String) :
    s.ledger.records.typeAt typeName =
      .gathered (Ledger.asked setting.maxOrScopes (Host.isLeaf typeName)
        (declarations setting statements)) := by
  rw [h.declared]
  exact (Ledger.typeAt_declareAll setting.maxOrScopes .empty _ typeName).trans
    (Requirement.none_accumulate _)

/-- Only enums and scalars that are registered are declared as such. -/
theorem kind?_of_isLeaf (h : Coherent setting (Look.all statements) s) {typeName : String}
    {d : Host × List Directive} (member : d ∈ declarations setting statements)
    (here : d.1.isLeaf typeName = true) :
    ∃ kind, s.types.kind? typeName = some kind ∧ kind.isLeaf = true := by
  obtain ⟨l, looked, inside⟩ := List.mem_flatMap.mp member
  cases l with
  | schema | enumValue | inputValue => exact absurd inside List.not_mem_nil
  | field isExtension t f =>
    dsimp only [Look.declarations] at inside
    split at inside
    · exact absurd inside List.not_mem_nil
    · rw [List.mem_singleton.mp inside] at here
      exact absurd here Bool.noConfusion
  | type isExtension t =>
    dsimp only [Look.declarations] at inside
    split at inside
    · next leaf =>
      rw [List.mem_singleton.mp inside] at here
      obtain rfl : typeName = t.name := of_decide_eq_true here
      exact ⟨t.kind, h.registered isExtension t looked, leaf⟩
    · exact absurd inside List.not_mem_nil

/-- Only fields that are registered are declared. -/
theorem field?_of_isField (h : Coherent setting (Look.all statements) s) {canonicalName name : String}
    {d : Host × List Directive} (member : d ∈ declarations setting statements)
    (here : d.1.isField canonicalName name = true) :
    ∃ typeName, setting.roots.canonicalName typeName = canonicalName ∧
      (s.types.field? typeName name).isSome = true := by
  obtain ⟨l, looked, inside⟩ := List.mem_flatMap.mp member
  cases l with
  | schema | enumValue | inputValue => exact absurd inside List.not_mem_nil
  | type isExtension t =>
    dsimp only [Look.declarations] at inside
    split at inside
    · rw [List.mem_singleton.mp inside] at here
      exact absurd here Bool.noConfusion
    · exact absurd inside List.not_mem_nil
  | field isExtension t f =>
    dsimp only [Look.declarations] at inside
    split at inside
    · exact absurd inside List.not_mem_nil
    · next looked' =>
      rw [List.mem_singleton.mp inside] at here
      obtain ⟨rfl, rfl⟩ : canonicalName = setting.roots.canonicalName t.name ∧ name = f.name :=
        of_decide_eq_true here
      refine ⟨t.name, rfl, (h.fields t.name f.name).mpr ⟨isExtension, t, f, looked, rfl, rfl, ?_⟩⟩
      exact Bool.eq_false_iff.mpr looked'

theorem kind?_of_mem_leafTypes (h : Coherent setting (Look.all statements) s) {typeName : String}
    (member : typeName ∈ s.ledger.leafTypes.toList) :
    ∃ kind, s.types.kind? typeName = some kind ∧ kind.isLeaf = true := by
  rw [h.declared] at member
  rcases Ledger.mem_leafTypes_declareAll setting.maxOrScopes .empty member with before | ⟨d, declared, here⟩
  · exact absurd before List.not_mem_nil
  · exact h.kind?_of_isLeaf declared here

/-- Where a type is no leaf type with a requirement, nothing is required of it. -/
theorem typeAt_of_not_mem_leafTypes (h : Coherent setting (Look.all statements) s) {typeName : String}
    (absent : typeName ∉ s.ledger.leafTypes.toList) : s.ledger.records.typeAt typeName = .none := by
  rw [h.typeAt]
  rw [h.declared] at absent
  exact Ledger.gathered_of_not_mem_leafTypes setting.maxOrScopes .empty absent

theorem field?_of_mem_fields (h : Coherent setting (Look.all statements) s) {canonicalName name : String}
    (member : name ∈ (s.ledger.records.of canonicalName).fields.keys) :
    ∃ typeName, setting.roots.canonicalName typeName = canonicalName ∧
      (s.types.field? typeName name).isSome = true := by
  rw [h.declared] at member
  rcases Ledger.mem_fields_declareAll setting.maxOrScopes .empty member with before | ⟨d, declared, here⟩
  · exact absurd before List.not_mem_nil
  · exact h.field?_of_isField declared here

/-- Every heir is a registered field, under the canonical name of its type. -/
theorem of_mem_heirs (h : Coherent setting (Look.all statements) s) {heir : Authorization.Heir}
    (member : heir ∈ s.ledger.heirs) :
    (s.types.field? heir.parent heir.field).isSome = true ∧
      heir.canonicalParent = setting.roots.canonicalName heir.parent := by
  -- Among the heirs of its own field an heir is what the field makes of it.
  have passed : heir ∈ s.ledger.heirs.filter
      (fun other => other.parent = heir.parent ∧ other.field = heir.field) :=
    List.mem_filter.mpr ⟨member, by simp⟩
  rw [h.heirs] at passed
  obtain ⟨field, known, same⟩ := List.mem_map.mp passed
  rw [Option.mem_toList] at known
  exact ⟨known ▸ rfl, by rw [← same]⟩

end Survey.Coherent

end Federation
