import Federation.Proofs.Normalization.Sightings

/-!
# One more extension

Between two valid subgraphs that differ by one more extension at the end, types keep their kinds and interfaces,
and the requirements that the extension does not declare. A field that is declared again inherits what it
inherited before.
-/

namespace Federation

open Schema
open Authorization

theorem definitions_append (first second : List Statement) (typeName : String) :
    definitions (first ++ second) typeName = definitions first typeName ++ definitions second typeName := by
  simp [definitions]

theorem sightings_append (first second : List Statement) (typeName name : String) :
    sightings (first ++ second) typeName name =
      sightings first typeName name ++ sightings second typeName name := by
  simp [sightings, definitions_append]

/-! ## The setting -/

theorem Overview.step_extendType (acc : Setting × List Error) (t : TypeDefinition) :
    step acc (.extendType t) = acc := rfl

theorem Overview.roots_step {acc acc' : Setting × List Error} (same : acc.1.roots = acc'.1.roots) (x : Statement) :
    (step acc x).1.roots = (step acc' x).1.roots := by
  rcases x with (_ | d | _) | d | _
  case define.schema => exact congrArg (fun roots => (declareRoots roots d).1) same
  case extendSchema => exact congrArg (fun roots => (declareRoots roots d).1) same
  all_goals exact same

theorem Overview.roots_foldl {acc acc' : Setting × List Error} (same : acc.1.roots = acc'.1.roots)
    (statements : List Statement) :
    (statements.foldl step acc).1.roots = (statements.foldl step acc').1.roots := by
  induction statements generalizing acc acc' with
  | nil => exact same
  | cons x rest ih => exact ih (roots_step same x)

/-- An extension of a type declares no root types. -/
theorem Setting.roots_extend (subgraph : String) (maxOrScopes : Nat) (statements : List Statement)
    (t : TypeDefinition) :
    (of subgraph maxOrScopes (statements ++ [.extendType t])).1.roots =
      (of subgraph maxOrScopes statements).1.roots := by
  unfold of
  dsimp only
  rw [List.foldl_append, List.foldl_cons, List.foldl_nil, Overview.step_extendType]
  apply Overview.roots_foldl
  rfl

theorem Assembly.roots_extend (subgraph : String) (maxOrScopes : Nat) (statements : List Statement)
    (t : TypeDefinition) :
    (Assembly.of subgraph maxOrScopes (statements ++ [.extendType t])).setting.roots =
      (Assembly.of subgraph maxOrScopes statements).setting.roots :=
  Setting.roots_extend subgraph maxOrScopes statements t

namespace Assembly.Valid

variable {a : Assembly} {statements : List Statement}

theorem kind?_iff (v : a.Valid statements) {typeName : String} {kind : TypeKind} :
    a.types.kind? typeName = some kind ↔ ∃ t ∈ definitions statements typeName, t.kind = kind :=
  v.coherent.kind?_iff

theorem mem_implemented_iff (v : a.Valid statements) {typeName interfaceName : String} :
    interfaceName ∈ a.types.implemented typeName ↔
      a.types.kind? typeName = some .object ∧
        ∃ t ∈ definitions statements typeName, interfaceName ∈ t.body.listedNames :=
  v.coherent.mem_implemented_iff

theorem field?_isSome_iff (v : a.Valid statements) {typeName name : String} :
    (a.types.field? typeName name).isSome = true ↔
      ∃ t ∈ definitions statements typeName, ∃ f ∈ t.fields, f.name = name ∧
        Look.isServed a.setting t f = false := by
  refine (v.coherent.fields typeName name).trans ?_
  constructor
  · rintro ⟨isExtension, t, f, looked, same, here, unserved⟩
    obtain ⟨looked, inside⟩ := Look.mem_all_field.mp looked
    exact ⟨t, mem_definitions.mpr ⟨⟨isExtension, looked⟩, same⟩, f, inside, here, unserved⟩
  · rintro ⟨t, defined, f, inside, here, unserved⟩
    obtain ⟨⟨isExtension, looked⟩, same⟩ := mem_definitions.mp defined
    exact ⟨isExtension, t, f, Look.mem_all_field.mpr ⟨looked, inside⟩, same, here, unserved⟩

/-- A registered field has the type of its first sighting. -/
theorem fieldType_eq (v : a.Valid statements) {typeName name : String}
    (known : (a.types.field? typeName name).isSome = true) :
    (a.types.field? typeName name).map Field.type =
      ((sightings statements typeName name).map FieldDefinition.type).head? := by
  refine (v.coherent.fieldType typeName name).trans (congrArg List.head? ?_)
  unfold sightings
  rw [List.map_flatMap, flatMap_definitions]
  refine flatMap_looks (fun _ => rfl) (fun _ _ _ => rfl) (fun _ _ _ => rfl) statements _
    fun isExtension t looked => ?_
  have registered : a.types.kind? t.name = some t.kind := v.coherent.registered isExtension t looked
  dsimp only [Look.sightedType]
  rw [List.nil_append]
  split
  · next same =>
    rw [← List.flatMap_singleton' (List.map _ _), List.flatMap_map, flatMap_filter]
    refine List.flatMap_congr fun f _ => ?_
    by_cases here : f.name = name
    · simp [here, same, v.not_isServed known (same ▸ registered) same here]
    · simp [here]
  · next other => simp [other]

/-! ## One more extension -/

section Extend

variable {a' : Assembly} {t : TypeDefinition} (v : a.Valid statements)
  (v' : a'.Valid (statements ++ [.extendType t])) (roots : a'.setting.roots = a.setting.roots)
  (limit : a'.setting.maxOrScopes = a.setting.maxOrScopes) (registered : t.name ∈ a.types.keys)

theorem mem_definitions_extend {typeName : String} {u : TypeDefinition}
    (defined : u ∈ definitions statements typeName) : u ∈ definitions (statements ++ [.extendType t]) typeName := by
  rw [definitions_append]
  exact List.mem_append_left _ defined

theorem definitions_extend_of_ne {typeName : String} (other : t.name ≠ typeName) :
    definitions (statements ++ [.extendType t]) typeName = definitions statements typeName := by
  rw [definitions_append]
  simp [definitions, Statement.type?, other]

include v v' registered in
theorem kind?_extend (typeName : String) : a'.types.kind? typeName = a.types.kind? typeName := by
  cases known : a.types.kind? typeName with
  | some kind =>
    obtain ⟨u, defined, same⟩ := v.kind?_iff.mp known
    exact v'.kind?_iff.mpr ⟨u, mem_definitions_extend defined, same⟩
  | none =>
    -- An unregistered type is not the one that is extended.
    have other : t.name ≠ typeName := by
      rintro rfl
      obtain ⟨entry, found⟩ := Table.exists_get?_of_mem_keys registered
      simp [Registry.kind?, found] at known
    refine Option.eq_none_iff_forall_ne_some.mpr fun kind found => ?_
    obtain ⟨u, defined, same⟩ := v'.kind?_iff.mp found
    rw [definitions_extend_of_ne other] at defined
    rw [v.kind?_iff.mpr ⟨u, defined, same⟩] at known
    exact absurd known (Option.some_ne_none kind)

include v v' registered in
/-- Objects implement what they did, and what the extension lists. -/
theorem mem_implemented_extend {typeName interfaceName : String}
    (implemented : interfaceName ∈ a.types.implemented typeName) :
    interfaceName ∈ a'.types.implemented typeName := by
  rw [v.mem_implemented_iff] at implemented
  rw [v'.mem_implemented_iff, kind?_extend v v' registered]
  obtain ⟨object, u, defined, listed⟩ := implemented
  exact ⟨object, u, mem_definitions_extend defined, listed⟩

include v v' registered limit in
/-- Where the extension declares no requirement of the type, objects and interfaces require what they did. -/
theorem typeLevel_extend (plain : ∀ d ∈ t.directives, d.isAuthorization = false) {typeName : String}
    {kind : TypeKind} (known : a.types.kind? typeName = some kind)
    (composite : Intake.goesToLedger kind.location = false) :
    typeLevel a'.setting.maxOrScopes (a'.types.applied typeName) =
      typeLevel a.setting.maxOrScopes (a.types.applied typeName) := by
  have known' : a'.types.kind? typeName = some kind := (kind?_extend v v' registered typeName).trans known
  rw [v.typeLevel_eq known composite, v'.typeLevel_eq known' composite, limit, definitions_append,
    List.flatMap_append, ← Declared.on_filter, List.filter_append]
  have nothing : ((definitions [.extendType t] typeName).flatMap TypeDefinition.directives).filter
      Directive.isAuthorization = [] := by
    refine List.filter_eq_nil_iff.mpr fun d member => ?_
    obtain ⟨u, defined, inside⟩ := List.mem_flatMap.mp member
    obtain rfl : u = t := by simpa [Statement.type?] using (List.mem_filter.mp defined).1
    simp [plain d inside]
  rw [nothing, List.append_nil, Declared.on_filter]

include v v' roots in
/-- Other types keep their fields, with what is declared on them. -/
theorem field?_extend_of_ne {typeName name : String} (other : t.name ≠ typeName) :
    (a'.types.field? typeName name).isSome = (a.types.field? typeName name).isSome := by
  rw [Bool.eq_iff_iff, v.field?_isSome_iff, v'.field?_isSome_iff, definitions_extend_of_ne other]
  unfold Look.isServed Setting.operation?
  rw [roots]

include v v' roots limit in
theorem declaredOnField_extend_of_ne {typeName name : String} (other : t.name ≠ typeName)
    (known : (a.types.field? typeName name).isSome = true) :
    a'.declaredOnField typeName name = a.declaredOnField typeName name := by
  have known' : (a'.types.field? typeName name).isSome = true :=
    (field?_extend_of_ne v v' roots other).trans known
  have before := v.declaredAt_eq (.field typeName name) known
  have after := v'.declaredAt_eq (.field typeName name) known'
  simp only [declaredAt, Site.blocks, sightings, definitions_extend_of_ne other, limit] at before after
  exact after.trans before.symm

theorem covers_congr {a a' : Assembly} {interfaceName : String}
    (kind? : a'.types.kind? interfaceName = a.types.kind? interfaceName)
    (level : a.types.kind? interfaceName = some .interface →
      typeLevel a'.setting.maxOrScopes (a'.types.applied interfaceName) =
        typeLevel a.setting.maxOrScopes (a.types.applied interfaceName)) :
    a'.covers interfaceName = a.covers interfaceName := by
  unfold covers
  rw [kind?]
  by_cases interface : a.types.kind? interfaceName = some .interface
  · rw [level interface]
  · simp [interface]

include v v' registered limit in
/-- The enum or scalar that a field names stays, and what it requires. -/
theorem requiredByLeaf_extend {name : String} (known : (a.types.field? t.name name).isSome = true)
    (known' : (a'.types.field? t.name name).isSome = true) :
    a'.requiredByLeaf t.name name = a.requiredByLeaf t.name name := by
  obtain ⟨field, found⟩ := Option.isSome_iff_exists.mp known
  obtain ⟨field', found'⟩ := Option.isSome_iff_exists.mp known'
  -- Of several types of one field the first counts, and the extension comes last.
  have type : field'.type = field.type := by
    have before := v.fieldType_eq known
    have after := v'.fieldType_eq known'
    rw [sightings_append, List.map_append, List.head?_append, ← before, found, found'] at after
    exact Option.some.inj after
  unfold requiredByLeaf
  simp only [found, found', type, kind?_extend v v' registered]
  split
  · next leaf =>
    obtain ⟨kind, leafKind, isLeaf⟩ := (Option.any_eq_true _ _).mp leaf
    have leafKind' := (kind?_extend v v' registered field.type.namedType).trans leafKind
    -- The type that is extended has fields, so it is no enum and no scalar.
    have other : t.name ≠ field.type.namedType := by
      intro same
      obtain ⟨entry, c, registered, composite, -⟩ := exists_of_field? known
      have own : a.types.kind? t.name = some entry.kind := congrArg (Option.map TypeEntry.kind) registered
      obtain rfl := Option.some.inj ((same ▸ own).symm.trans leafKind)
      exact absurd isLeaf (by simp [isLeaf_of_composite? (composite ▸ rfl : entry.composite?.isSome = true)])
    have before := v.declaredAt_eq (.leaf field.type.namedType) leaf
    have after := v'.declaredAt_eq (.leaf field.type.namedType)
      ((Option.any_eq_true _ _).mpr ⟨kind, leafKind', isLeaf⟩)
    simp only [Site.blocks, definitions_extend_of_ne other, limit] at before after
    rw [← v.typeAt_leaf leafKind isLeaf, ← v'.typeAt_leaf leafKind' isLeaf]
    exact after.trans before.symm
  · rfl

include v v' roots limit registered in
/-- A field that is declared again inherits what it inherited, and perhaps more from new interfaces. -/
theorem inherited_subset_extend (plain : ∀ d ∈ t.directives, d.isAuthorization = false) {name : String}
    (known : (a.types.field? t.name name).isSome = true) (known' : (a'.types.field? t.name name).isSome = true) :
    a.inherited t.name name ⊆ a'.inherited t.name name := by
  obtain ⟨entry, c, found, composite, -⟩ := exists_of_field? known
  have own : a.types.kind? t.name = some entry.kind := congrArg (Option.map TypeEntry.kind) found
  have type : a'.requiredByType t.name = a.requiredByType t.name :=
    congrArg Declared.asked (typeLevel_extend v v' limit registered plain own
      (goesToLedger_of_composite (composite ▸ rfl)))
  have leaf := requiredByLeaf_extend v v' limit registered known known'
  -- The interfaces that the type implemented are other types, which stay as they are.
  have interfaces : ∀ i ∈ a.interfacesOver t.name name, i ∈ a'.interfacesOver t.name name ∧
      [a'.declaredOnField i name, a'.requiredByType i] = [a.declaredOnField i name, a.requiredByType i] := by
    intro i member
    obtain ⟨implemented, covers, inside⟩ := mem_interfacesOver.mp member
    have interface := kind?_of_covers covers
    have other : t.name ≠ i := by
      rintro rfl
      have object := (Survey.mem_implemented.mp implemented).1
      exact absurd (Option.some.inj (object.symm.trans interface)) nofun
    have level := typeLevel_extend v v' limit registered plain interface rfl
    constructor
    · refine mem_interfacesOver.mpr ⟨mem_implemented_extend v v' registered implemented, ?_, ?_⟩
      · rw [covers_congr (kind?_extend v v' registered i) fun _ => level, covers]
      · rw [field?_extend_of_ne v v' roots other, inside]
    · rw [declaredOnField_extend_of_ne v v' roots limit other inside]
      unfold requiredByType
      rw [level]
  unfold inherited
  rw [type, leaf, roots]
  intro r
  simp only [List.mem_append]
  refine Or.imp_left (Or.imp_right ?_)
  split
  · intro member
    obtain ⟨i, given, inside⟩ := List.mem_flatMap.mp member
    obtain ⟨given', same⟩ := interfaces i given
    exact List.mem_flatMap.mpr ⟨i, given', same ▸ inside⟩
  · exact id

end Extend

end Assembly.Valid

end Federation
