import Federation.Proofs.Normalization.Override

/-!
# Root types of valid subgraphs

An object is a root type by the default name of an operation or by a declaration. Where a subgraph is valid the two
do not conflict, and the root types are those whose canonical names are default names of defined operations.
-/

namespace Federation

open Schema

namespace Schema.Operation

theorem ofDefaultTypeName?_eq_some_iff {name : String} {operation : Operation} :
    ofDefaultTypeName? name = some operation ↔ operation.defaultTypeName = name := by
  constructor
  · intro found
    simpa using List.find?_some found
  · rintro rfl
    cases operation <;> rfl

end Schema.Operation

namespace RootTypes

variable {roots : RootTypes} {typeName : String}

theorem isRootName_iff : roots.isRootName typeName = true ↔
    (∃ operation : Operation, operation.defaultTypeName = typeName) ∨ typeName ∈ roots.byTypeName.keys := by
  simp [isRootName, Option.isSome_iff_exists, Operation.ofDefaultTypeName?_eq_some_iff, Table.contains_iff]

/-- The operation of a root type is the one whose default name is the canonical name of the type. -/
theorem operation?_eq_some_iff {operation : Operation} : roots.operation? typeName = some operation ↔
    roots.isRootName typeName = true ∧ operation.defaultTypeName = roots.canonicalName typeName := by
  unfold operation?
  split
  · next root => simp [root, Operation.ofDefaultTypeName?_eq_some_iff]
  · next other => simp [other]

/-- Just the root types have an operation. -/
theorem isSome_operation? (roots : RootTypes) (typeName : String) :
    (roots.operation? typeName).isSome = roots.isRootName typeName := by
  rw [Bool.eq_iff_iff, Option.isSome_iff_exists]
  constructor
  · rintro ⟨operation, found⟩
    exact (operation?_eq_some_iff.mp found).1
  · intro root
    rcases roots.canonicalName_cases typeName with ⟨undeclared, own⟩ | ⟨operation, -, default⟩
    · rcases isRootName_iff.mp root with ⟨operation, rfl⟩ | declared
      · exact ⟨operation, operation?_eq_some_iff.mpr ⟨root, own.symm⟩⟩
      · exact absurd declared (Table.get?_eq_none_iff.mp undeclared)
    · exact ⟨operation, operation?_eq_some_iff.mpr ⟨root, default.symm⟩⟩

end RootTypes

namespace Assembly.Valid

variable {a : Assembly} {statements : List Statement}

theorem isShadowed_eq_false (v : a.Valid statements) (operation : Operation) : a.isShadowed operation = false := by
  have quiet := v.roots operation
  unfold rootErrors at quiet
  dsimp only at quiet
  split at quiet
  · exact absurd quiet (List.cons_ne_nil _ _)
  · next plain => exact Bool.eq_false_iff.mpr plain

/-- The root type of an operation is an object. -/
theorem kind?_rootName (v : a.Valid statements) {operation : Operation} {kind : TypeKind}
    (known : a.types.kind? (a.rootName operation).1 = some kind) : kind = .object := by
  have quiet := v.roots operation
  simp only [rootErrors, v.isShadowed_eq_false operation, known, Bool.false_eq_true, if_false] at quiet
  split at quiet
  · assumption
  · exact absurd quiet (List.cons_ne_nil _ _)

theorem mem_definedRoots_iff (v : a.Valid statements) {name : String} : name ∈ a.definedRoots ↔
    ∃ operation : Operation, operation.defaultTypeName = name ∧ (a.rootName operation).1 ∈ a.types.keys := by
  unfold definedRoots
  simp only [List.mem_filterMap, v.isShadowed_eq_false, Bool.not_false, Bool.true_and, Table.contains_iff,
    Option.ite_none_right_eq_some, Option.some.injEq]
  constructor
  · rintro ⟨operation, -, registered, named⟩
    exact ⟨operation, named, registered⟩
  · rintro ⟨operation, named, registered⟩
    exact ⟨operation, operation.mem_all, registered, named⟩

/-- The type that is registered under the name of a root type is the root type of some operation, and of the one that
its canonical name tells. -/
theorem exists_rootName (v : a.Valid statements) {typeName : String} (registered : typeName ∈ a.types.keys)
    (root : a.setting.roots.isRootName typeName = true) : ∃ operation : Operation,
      operation.defaultTypeName = a.setting.roots.canonicalName typeName ∧ (a.rootName operation).1 = typeName := by
  rcases a.setting.roots.canonicalName_cases typeName with ⟨undeclared, own⟩ | ⟨operation, declared, default⟩
  · rcases RootTypes.isRootName_iff.mp root with ⟨operation, rfl⟩ | declared
    · refine ⟨operation, own.symm, ?_⟩
      -- Another root type for this operation would stand beside the default one.
      by_contra other
      have shadowed : a.isShadowed operation = true := by simp [isShadowed, other, Table.contains_iff.mpr registered]
      exact absurd (shadowed.symm.trans (v.isShadowed_eq_false operation)) Bool.noConfusion
    · exact absurd declared (Table.get?_eq_none_iff.mp undeclared)
  · refine ⟨operation, default.symm, ?_⟩
    simp [rootName, v.consistent typeName operation declared]

/-- Queries start at a registered type by its canonical name just where it is a root type. -/
theorem canonicalName_mem_definedRoots_iff (v : a.Valid statements) {typeName : String}
    (registered : typeName ∈ a.types.keys) :
    a.setting.roots.canonicalName typeName ∈ a.definedRoots ↔ a.setting.roots.isRootName typeName = true := by
  rw [v.mem_definedRoots_iff]
  constructor
  · rintro ⟨operation, named, -⟩
    rcases a.setting.roots.canonicalName_cases typeName with ⟨-, own⟩ | ⟨_, declared, -⟩
    · exact RootTypes.isRootName_iff.mpr (.inl ⟨operation, named.trans own⟩)
    · exact RootTypes.isRootName_iff.mpr (.inr (Table.mem_keys_of_get? declared))
  · intro root
    obtain ⟨operation, named, same⟩ := v.exists_rootName registered root
    exact ⟨operation, named, same.symm ▸ registered⟩

/-- Root types are objects. -/
theorem kind_of_isRootName (v : a.Valid statements) {typeName : String} {kind : TypeKind}
    (known : a.types.kind? typeName = some kind) (root : a.setting.roots.isRootName typeName = true) :
    kind = .object := by
  obtain ⟨operation, -, same⟩ := v.exists_rootName (mem_keys_of_kind? known) root
  exact v.kind?_rootName (same.symm ▸ known)

end Assembly.Valid

end Federation
