import Federation.Normalization.Outcome
import Federation.Proofs.Survey.Coherence

/-!
# Valid subgraphs

A subgraph is handed out only where nothing was reported. Its survey then agrees with its text, no host is
over the limit, and no two of its types have one canonical name.
-/

namespace Federation

open Schema

/-! ## Root types -/

/-- What a type was declared for as a root type, it is the root type of. -/
def RootTypes.Consistent (roots : RootTypes) : Prop :=
  ∀ typeName operation, roots.byTypeName.get? typeName = some operation →
    roots.byOperation.get? operation = some typeName

theorem RootTypes.consistent_declare {roots : RootTypes} (operation : Operation) (typeName : String)
    (before : roots.Consistent) : (roots.declare operation typeName).Consistent := by
  unfold declare
  split
  · exact before
  · next absent =>
    intro other operation' known
    simp only [Table.get?_insert] at known ⊢
    split at known
    · next same =>
      obtain rfl := Option.some.inj known
      rw [if_pos rfl, same]
    · have known' := before other operation' known
      -- The operation was free until now, so no type was declared for it.
      have different : operation' ≠ operation := by
        rintro rfl
        exact absent (Table.contains_iff.mpr (Table.mem_keys_of_get? known'))
      rw [if_neg different, known']

namespace Overview

theorem consistent_declareRoots {roots : RootTypes} (d : SchemaDefinition) (before : roots.Consistent) :
    (declareRoots roots d).1.Consistent := by
  have fold : ∀ (declared : List (Operation × String)) (acc : RootTypes × List Error),
      acc.1.Consistent → (declared.foldl (fun acc e =>
        ((declareRoot e.1 e.2 acc.1).1, acc.2 ++ (declareRoot e.1 e.2 acc.1).2)) acc).1.Consistent := by
    intro declared
    induction declared with
    | nil => exact fun _ h => h
    | cons e rest ih =>
      intro acc h
      refine ih _ ?_
      unfold declareRoot
      dsimp only
      split
      · exact h
      · exact RootTypes.consistent_declare e.1 e.2 h
  exact fold (rootsOf d) (roots, []) before

/-- What every statement leaves as it is in a setting. -/
theorem of_step (acc : Setting × List Error) (x : Statement) (before : acc.1.roots.Consistent) :
    (step acc x).1.roots.Consistent ∧ (step acc x).1.maxOrScopes = acc.1.maxOrScopes ∧
      (step acc x).1.subgraph = acc.1.subgraph := by
  rcases x with (_ | d | _) | d | _
  case define.schema => exact ⟨consistent_declareRoots d before, rfl, rfl⟩
  case extendSchema => exact ⟨consistent_declareRoots d before, rfl, rfl⟩
  all_goals exact ⟨before, rfl, rfl⟩

end Overview

theorem Setting.of_consistent (subgraph : String) (maxOrScopes : Nat) (statements : List Statement) :
    (of subgraph maxOrScopes statements).1.roots.Consistent ∧
      (of subgraph maxOrScopes statements).1.maxOrScopes = maxOrScopes ∧
      (of subgraph maxOrScopes statements).1.subgraph = subgraph := by
  have fold : ∀ (acc : Setting × List Error), acc.1.roots.Consistent →
      (statements.foldl Overview.step acc).1.roots.Consistent ∧
        (statements.foldl Overview.step acc).1.maxOrScopes = acc.1.maxOrScopes ∧
        (statements.foldl Overview.step acc).1.subgraph = acc.1.subgraph := by
    induction statements with
    | nil => exact fun _ h => ⟨h, rfl, rfl⟩
    | cons x rest ih =>
      intro acc h
      have one := Overview.of_step acc x h
      have all := ih (Overview.step acc x) one.1
      exact ⟨all.1, all.2.1.trans one.2.1, all.2.2.trans one.2.2⟩
  exact fold _ nofun

theorem Schema.Operation.mem_all (operation : Operation) : operation ∈ Operation.all := by
  cases operation <;> simp [Operation.all]

theorem Schema.Operation.defaultTypeName_injective {a b : Operation}
    (same : a.defaultTypeName = b.defaultTypeName) : a = b := by
  revert same
  cases a <;> cases b <;> decide

namespace RootTypes

/-- A canonical name is the type's own, or the default name of an operation that the type was declared
for. -/
theorem canonicalName_cases (roots : RootTypes) (typeName : String) :
    (roots.byTypeName.get? typeName = none ∧ roots.canonicalName typeName = typeName) ∨
      ∃ operation, roots.byTypeName.get? typeName = some operation ∧
        roots.canonicalName typeName = operation.defaultTypeName := by
  unfold canonicalName
  cases roots.byTypeName.get? typeName with
  | none => exact Or.inl ⟨rfl, rfl⟩
  | some operation => exact Or.inr ⟨operation, rfl, rfl⟩

end RootTypes

namespace Assembly

variable {a : Assembly}

/-- Nothing is reported of an assembled subgraph, and what it was assembled from fits together. -/
structure Valid (a : Assembly) (statements : List Statement) : Prop where
  coherent : Survey.Coherent a.setting (Look.all statements) a.survey
  consistent : a.setting.roots.Consistent
  ledger : a.ledger = a.survey.ledger.consolidate a.setting.maxOrScopes a.setting.roots a.survey.types
    a.survey.concrete
  within : a.ledger.overLimit.toList = []
  roots : ∀ operation, a.rootErrors operation = []

theorem maxOrScopes_of (subgraph : String) (maxOrScopes : Nat) (statements : List Statement) :
    (Assembly.of subgraph maxOrScopes statements).setting.maxOrScopes = maxOrScopes :=
  (Setting.of_consistent subgraph maxOrScopes statements).2.1

theorem subgraph_of (subgraph : String) (maxOrScopes : Nat) (statements : List Statement) :
    (Assembly.of subgraph maxOrScopes statements).setting.subgraph = subgraph :=
  (Setting.of_consistent subgraph maxOrScopes statements).2.2

theorem valid_of (subgraph : String) (maxOrScopes : Nat) (statements : List Statement)
    (clean : (Assembly.of subgraph maxOrScopes statements).errors = []) :
    (Assembly.of subgraph maxOrScopes statements).Valid statements := by
  have consistent := Setting.of_consistent subgraph maxOrScopes statements
  simp only [errors, List.append_eq_nil_iff, List.flatMap_eq_nil_iff] at clean
  obtain ⟨⟨⟨⟨⟨⟨⟨⟨⟨survey, scopes⟩, -⟩, roots⟩, -⟩, -⟩, -⟩, -⟩, -⟩, -⟩ := clean
  refine ⟨Survey.coherent_walk survey, consistent.1, ?_, ?_, fun operation =>
    roots operation operation.mem_all⟩
  · unfold Assembly.of
    rw [consistent.2.1]
  · unfold scopeErrors at scopes
    split at scopes
    · next empty => exact OrderedSet.isEmpty_iff.mp empty
    · exact absurd scopes (List.cons_ne_nil _ _)

namespace Valid

variable {statements : List Statement}

/-- The root type of an operation is an object if it is anything, and no other type has the default
name. -/
theorem root_of_declared (v : a.Valid statements) {typeName : String} {operation : Operation}
    (declared : a.setting.roots.byTypeName.get? typeName = some operation) :
    (typeName = operation.defaultTypeName ∨ operation.defaultTypeName ∉ a.types.keys) ∧
      ∀ kind, a.types.kind? typeName = some kind → kind = .object := by
  have root : a.rootName operation = (typeName, true) := by
    simp [rootName, v.consistent typeName operation declared]
  have quiet := v.roots operation
  unfold rootErrors at quiet
  rw [root] at quiet
  dsimp only at quiet
  split at quiet
  · exact absurd quiet (List.cons_ne_nil _ _)
  · next plain =>
    constructor
    · by_cases same : typeName = operation.defaultTypeName
      · exact Or.inl same
      · refine Or.inr fun registered => plain ?_
        simp [isShadowed, root, same, Table.contains_iff.mpr registered]
    · intro kind known
      rw [known] at quiet
      dsimp only at quiet
      split at quiet
      · assumption
      · exact absurd quiet (List.cons_ne_nil _ _)

/-- A canonical name that is registered is the name of the type itself. -/
theorem eq_of_canonicalName (v : a.Valid statements) {typeName other : String}
    (registered : other ∈ a.types.keys) (same : a.setting.roots.canonicalName typeName = other) :
    typeName = other := by
  rcases a.setting.roots.canonicalName_cases typeName with ⟨-, own⟩ | ⟨operation, declared, default⟩
  · exact own.symm.trans same
  · rcases (v.root_of_declared declared).1 with named | absent
    · rw [named, ← default, same]
    · exact absurd (default ▸ same ▸ registered) absent

/-- No two types have one canonical name. -/
theorem canonicalName_injective (v : a.Valid statements) {typeName other : String}
    (first : typeName ∈ a.types.keys) (second : other ∈ a.types.keys)
    (same : a.setting.roots.canonicalName typeName = a.setting.roots.canonicalName other) :
    typeName = other := by
  rcases a.setting.roots.canonicalName_cases typeName with ⟨-, own⟩ | ⟨operation, declared, default⟩
  · exact (v.eq_of_canonicalName first (same.symm.trans own)).symm
  -- Two types that were declared for one operation are one.
  · rcases a.setting.roots.canonicalName_cases other with ⟨-, own⟩ | ⟨operation', declared', default'⟩
    · exact v.eq_of_canonicalName second (same.trans own)
    · have alike : operation = operation' :=
        Operation.defaultTypeName_injective (default.symm.trans (same.trans default'))
      subst alike
      have both := (v.consistent _ _ declared).symm.trans (v.consistent _ _ declared')
      exact Option.some.inj both

/-- Only objects are root types. -/
theorem canonicalName_of_not_object (v : a.Valid statements) {typeName : String} {kind : TypeKind}
    (known : a.types.kind? typeName = some kind) (other : kind ≠ .object) :
    a.setting.roots.canonicalName typeName = typeName := by
  rcases a.setting.roots.canonicalName_cases typeName with ⟨-, own⟩ | ⟨operation, declared, -⟩
  · exact own
  · exact absurd ((v.root_of_declared declared).2 kind known) other

end Valid

end Assembly

/-! ## Interfaces of objects -/

/-- What is registered as an object is written as one. -/
theorem Registry.object_of_kind? {types : Registry} {typeName : String} (known : types.kind? typeName = some .object) :
    ∃ entry c, types.get? typeName = some entry ∧ entry.shape = .object c := by
  obtain ⟨⟨_, _, _, _, shape⟩, found, kind⟩ := Option.map_eq_some_iff.mp known
  cases shape with
  | object c => exact ⟨_, c, found, rfl⟩
  | interface | enum | inputObject | scalar | union => exact absurd kind (by simp [TypeEntry.kind, Shape.kind])

theorem Assembly.typeErrors_of_composite? {a : Assembly} {typeName : String} {entry : TypeEntry} {c : Composite}
    (composite : entry.composite? = some c) : a.typeErrors typeName entry = a.compositeErrors typeName entry c := by
  obtain ⟨_, _, _, _, shape⟩ := entry
  cases shape with
  | interface | object =>
    obtain rfl := Option.some.inj composite
    rfl
  | enum | inputObject | scalar | union => exact absurd composite nofun

/-- Where nothing is reported of a type, what it implements is an interface other than itself. -/
theorem Assembly.kind?_of_listed {a : Assembly} {typeName interfaceName : String} {entry : TypeEntry} {c : Composite}
    (quiet : a.typeErrors typeName entry = []) (composite : entry.composite? = some c)
    (listed : interfaceName ∈ c.implements.toList) :
    a.types.kind? interfaceName = some .interface ∧ interfaceName ≠ typeName := by
  rw [typeErrors_of_composite? composite] at quiet
  simp only [compositeErrors, implementationErrors, List.append_eq_nil_iff, List.map_eq_nil_iff] at quiet
  obtain ⟨⟨-, ⟨⟨undefined, others⟩, itself⟩, -⟩, -⟩ := quiet
  have defined := List.filter_eq_nil_iff.mp undefined interfaceName listed
  have target := List.filterMap_eq_nil_iff.mp (ite_isEmpty_eq_nil_iff.mp others) interfaceName listed
  have other : ¬ Implementation.implementsItself a.types typeName c = true := by
    split at itself
    · exact absurd itself (List.cons_ne_nil _ _)
    · assumption
  rw [Implementation.implementsItself, List.any_eq_true] at other
  have foreign := fun same => other ⟨interfaceName, listed, same⟩
  unfold Implementation.target at defined target foreign
  cases found : a.types.get? interfaceName with
  | none => simp [found] at defined
  | some registered =>
    simp only [found] at target foreign
    unfold Registry.kind?
    rw [found]
    obtain ⟨_, _, _, _, shape⟩ := registered
    cases shape with
    | interface => exact ⟨rfl, fun same => foreign (by simp [same])⟩
    | enum | inputObject | object | scalar | union => simp at target

/-- Where nothing is reported of types, what an object implements is an interface. -/
theorem Assembly.kind?_of_implemented {a : Assembly} (quiet : ∀ e ∈ a.ownTypes, a.typeErrors e.1 e.2 = [])
    {typeName interfaceName : String} (own : a.isSupportType typeName = false)
    (implemented : interfaceName ∈ a.types.implemented typeName) :
    a.types.kind? interfaceName = some .interface := by
  obtain ⟨object, listed⟩ := Survey.mem_implemented.mp implemented
  obtain ⟨entry, c, registered, shape⟩ := Registry.object_of_kind? object
  have inside : interfaceName ∈ c.implements.toList := by
    simpa [Registry.listedNames, registered, shape, Shape.listedNames] using listed
  have none := quiet (typeName, entry) (List.mem_filter.mpr ⟨Table.mem_toList.mpr registered, by simp [own]⟩)
  have composite : entry.composite? = some c := by rw [TypeEntry.composite?, shape]; rfl
  exact (kind?_of_listed none composite inside).1

/-! ## Results -/

/-- A subgraph that is handed out is the result of an assembly without errors. -/
theorem result_of_normalize {options : NormalizationOptions} {statements : List Statement}
    {n : NormalSubgraph} (valid : (normalize options statements).result? = some n) :
    (Assembly.of options.subgraph options.maxOrScopes statements).errors = [] ∧
      n = (Assembly.of options.subgraph options.maxOrScopes statements).result := by
  unfold normalize at valid
  dsimp only at valid
  by_cases fatal : (if options.warningsAreFatal then
      (⟨(Assembly.of options.subgraph options.maxOrScopes statements).errors,
        (Assembly.of options.subgraph options.maxOrScopes statements).warnings⟩ :
          Diagnostics).promoteWarnings
      else ⟨(Assembly.of options.subgraph options.maxOrScopes statements).errors,
        (Assembly.of options.subgraph options.maxOrScopes statements).warnings⟩).anyFatal = true
  · rw [if_pos fatal] at valid
    exact absurd valid nofun
  · rw [if_neg fatal] at valid
    refine ⟨?_, (Option.some.inj valid).symm⟩
    unfold Diagnostics.anyFatal at fatal
    split at fatal
    · simp only [Diagnostics.promoteWarnings, Bool.not_eq_true', Bool.not_eq_false, List.isEmpty_iff,
        List.append_eq_nil_iff] at fatal
      exact fatal.1
    · simpa using fatal

end Federation
