import Mathlib.Data.List.Nodup
import Federation.Proofs.Normalization.Sightings
import Federation.Proofs.Survey.Override

/-!
# Overrides of a valid subgraph

What a valid subgraph hands out of overrides is what its text declares, by the canonical names of types. The
name that the subgraph has for a type is found again from the canonical one, and its configuration lists the
fields that it resolves itself.
-/

namespace Federation

open Schema

namespace RootTypes

variable {roots : RootTypes}

theorem mem_renamed {canonicalName typeName : String} :
    (canonicalName, typeName) ∈ roots.renamed ↔ ∃ operation : Operation,
      operation.defaultTypeName = canonicalName ∧ roots.byOperation.get? operation = some typeName ∧
        typeName ≠ canonicalName := by
  unfold renamed
  rw [List.mem_filterMap]
  constructor
  · rintro ⟨⟨operation, name⟩, member, passed⟩
    dsimp only at passed
    split at passed
    · exact absurd passed nofun
    · next other =>
      obtain ⟨rfl, rfl⟩ := Prod.mk.inj (Option.some.inj passed)
      exact ⟨operation, rfl, Table.mem_toList.mp member, other⟩
  · rintro ⟨operation, rfl, found, other⟩
    exact ⟨(operation, typeName), Table.mem_toList.mpr found, if_neg other⟩

/-- An operation has one root type, so there is one name for each canonical one. -/
theorem localName_of_mem {canonicalName typeName : String} (member : (canonicalName, typeName) ∈ roots.renamed) :
    roots.localName canonicalName = typeName := by
  unfold localName
  cases found : roots.renamed.find? (·.1 = canonicalName) with
  | none => exact absurd rfl (of_decide_eq_false (Bool.eq_false_iff.mpr (List.find?_eq_none.mp found _ member)))
  | some e =>
    obtain ⟨name, other⟩ := e
    obtain rfl : name = canonicalName := by simpa using List.find?_some found
    obtain ⟨operation, default, root, -⟩ := mem_renamed.mp (List.mem_of_find?_eq_some found)
    obtain ⟨operation', default', root', -⟩ := mem_renamed.mp member
    obtain rfl := Operation.defaultTypeName_injective (default.trans default'.symm)
    exact Option.some.inj (root.symm.trans root')

theorem localName_of_notMem {canonicalName : String}
    (absent : ∀ typeName, (canonicalName, typeName) ∉ roots.renamed) :
    roots.localName canonicalName = canonicalName := by
  unfold localName
  cases found : roots.renamed.find? (·.1 = canonicalName) with
  | none => rfl
  | some e =>
    have here : e.1 = canonicalName := by simpa using List.find?_some found
    exact absurd (here ▸ List.mem_of_find?_eq_some found) (absent e.2)

end RootTypes

namespace Assembly.Valid

variable {a : Assembly} {statements : List Statement}

/-- A registered type is called by its own name again. -/
theorem localName_canonicalName (v : a.Valid statements) {typeName : String} (registered : typeName ∈ a.types.keys) :
    a.setting.roots.localName (a.setting.roots.canonicalName typeName) = typeName := by
  rcases a.setting.roots.canonicalName_cases typeName with ⟨-, own⟩ | ⟨operation, declared, default⟩
  · rw [own]
    refine RootTypes.localName_of_notMem fun other renamed => ?_
    -- Another root type of that operation would be defined beside the default one.
    obtain ⟨operation, rfl, root, different⟩ := RootTypes.mem_renamed.mp renamed
    have shadowed : a.isShadowed operation = true := by
      simp [isShadowed, rootName, root, different, Table.contains_iff.mpr registered]
    have quiet := v.roots operation
    simp [rootErrors, rootName, shadowed] at quiet
  · rw [default]
    have root := v.consistent typeName operation declared
    by_cases named : typeName = operation.defaultTypeName
    · rw [named]
      refine RootTypes.localName_of_notMem fun other renamed => ?_
      obtain ⟨operation', default', root', different⟩ := RootTypes.mem_renamed.mp renamed
      obtain rfl := Operation.defaultTypeName_injective default'
      exact different (Option.some.inj (root'.symm.trans (root.trans (congrArg some named))))
    · exact RootTypes.localName_of_mem (RootTypes.mem_renamed.mpr ⟨operation, rfl, root, named⟩)

end Assembly.Valid

/-! ## Declarations -/

/-- Whether a sighting of a registered field takes it over from another subgraph. The type goes by the name that
the subgraph has for it. -/
def NormalSubgraph.TakesOver (n : NormalSubgraph) (statements : List Statement) (target typeName name : String) :
    Prop :=
  (n.types.field? typeName name).isSome = true ∧
    ∃ f ∈ sightings statements typeName name, target ∈ overriddenBy f.directives

namespace Assembly

variable {a : Assembly} {statements : List Statement}

/-- A declaration that is looked at is a sighting of a registered field. -/
theorem Valid.looked_iff (v : a.Valid statements) {typeName name : String} {f : FieldDefinition} :
    (∃ isExtension t, .field isExtension t f ∈ Look.all statements ∧ Look.isServed a.setting t f = false ∧
        t.name = typeName ∧ f.name = name) ↔
      (a.types.field? typeName name).isSome = true ∧ f ∈ sightings statements typeName name := by
  constructor
  · rintro ⟨isExtension, t, looked, unserved, rfl, rfl⟩
    obtain ⟨typed, inside⟩ := Look.mem_all_field.mp looked
    refine ⟨(v.coherent.fields _ _).mpr ⟨isExtension, t, f, looked, rfl, rfl, unserved⟩, ?_⟩
    exact List.mem_flatMap.mpr ⟨t, mem_definitions.mpr ⟨⟨isExtension, typed⟩, rfl⟩,
      List.mem_filter.mpr ⟨inside, decide_eq_true rfl⟩⟩
  · rintro ⟨known, sighted⟩
    obtain ⟨t, defined, inside⟩ := List.mem_flatMap.mp sighted
    obtain ⟨inside, here⟩ := List.mem_filter.mp inside
    obtain ⟨⟨isExtension, typed⟩, same⟩ := mem_definitions.mp defined
    have registered := v.coherent.registered isExtension t typed
    exact ⟨isExtension, t, Look.mem_all_field.mpr ⟨typed, inside⟩,
      v.not_isServed known (same ▸ registered) same (of_decide_eq_true here), same, of_decide_eq_true here⟩

theorem recordsOverrides_of {subgraph : String} {maxOrScopes : Nat}
    (clean : (Assembly.of subgraph maxOrScopes statements).errors = []) :
    Survey.RecordsOverrides (Assembly.of subgraph maxOrScopes statements).setting (Look.all statements)
      (Assembly.of subgraph maxOrScopes statements).survey := by
  simp only [errors, List.append_eq_nil_iff] at clean
  obtain ⟨⟨⟨⟨⟨⟨⟨⟨⟨survey, -⟩, -⟩, -⟩, -⟩, -⟩, -⟩, -⟩, -⟩, -⟩ := clean
  exact Survey.recordsOverrides_walk survey

end Assembly

/-- A field that is taken over from a subgraph, with the canonical name of its type. -/
structure Takeover where
  target : String
  typeName : String
  field : String
  deriving DecidableEq

namespace Overrides

/-- The fields that are taken over from one subgraph. -/
def takeoversFrom (target : String) (types : Table String NameSet) : List Takeover :=
  types.toList.flatMap fun (typeName, fields) => fields.toList.map (⟨target, typeName, ·⟩)

/-- All fields that are taken over, in order of arrival of the subgraphs and types that have them. -/
def takeovers (overrides : Overrides) : List Takeover :=
  (Table.toList overrides).flatMap fun (target, types) => takeoversFrom target types

variable {overrides : Overrides}

theorem mem_fields {target typeName name : String} :
    name ∈ (overrides.fields target typeName).toList ↔ ∃ types, Table.get? overrides target = some types ∧
      ∃ names, types.get? typeName = some names ∧ name ∈ names.toList := by
  unfold fields Table.getD
  cases Table.get? overrides target with
  | none => simp
  | some types => cases here : types.get? typeName <;> simp [here]

theorem mem_takeovers {t : Takeover} :
    t ∈ overrides.takeovers ↔ t.field ∈ (overrides.fields t.target t.typeName).toList := by
  obtain ⟨target, typeName, field⟩ := t
  simp only [takeovers, takeoversFrom, List.mem_flatMap, List.mem_map, Prod.exists, Table.mem_toList, mem_fields,
    Takeover.mk.injEq]
  constructor
  · rintro ⟨_, types, found, _, names, listed, _, member, rfl, rfl, rfl⟩
    exact ⟨types, found, names, listed, member⟩
  · rintro ⟨types, found, names, listed, member⟩
    exact ⟨target, types, found, typeName, names, listed, field, member, rfl, rfl, rfl⟩

/-- No takeover is listed twice. -/
theorem nodup_takeovers (overrides : Overrides) : overrides.takeovers.Nodup := by
  refine Table.nodup_flatMap overrides takeoversFrom Takeover.target (fun target types => ?_)
    fun target types t member => ?_
  · refine Table.nodup_flatMap types (fun typeName fields => fields.toList.map (⟨target, typeName, ·⟩))
      Takeover.typeName (fun typeName fields => ?_) fun typeName fields t member => ?_
    · exact fields.nodup.map fun first second same => (Takeover.mk.inj same).2.2
    · obtain ⟨field, -, rfl⟩ := List.mem_map.mp member
      rfl
  · obtain ⟨e, -, inside⟩ := List.mem_flatMap.mp member
    obtain ⟨field, -, rfl⟩ := List.mem_map.mp inside
    rfl

end Overrides

section Normal

variable {options : NormalizationOptions} {statements : List Statement} {n : NormalSubgraph}
  (valid : (normalize options statements).result? = some n)

include valid

/-- The fields that are taken over from a subgraph are those on which the text says so. -/
theorem mem_overrides {target canonicalName name : String} :
    name ∈ (n.overrides.fields target canonicalName).toList ↔
      ∃ typeName, n.roots.canonicalName typeName = canonicalName ∧
        n.TakesOver statements target typeName name := by
  obtain ⟨clean, rfl⟩ := result_of_normalize valid
  have v := Assembly.valid_of options.subgraph options.maxOrScopes statements clean
  refine ((Assembly.recordsOverrides_of clean).fields target canonicalName name).trans ?_
  constructor
  · rintro ⟨isExtension, t, f, looked, unserved, canonical, here, taken⟩
    obtain ⟨known, sighted⟩ := v.looked_iff.mp ⟨isExtension, t, looked, unserved, rfl, here⟩
    exact ⟨t.name, canonical, known, f, sighted, taken⟩
  · rintro ⟨typeName, canonical, known, f, sighted, taken⟩
    obtain ⟨isExtension, t, looked, unserved, rfl, here⟩ := v.looked_iff.mpr ⟨known, sighted⟩
    exact ⟨isExtension, t, f, looked, unserved, canonical, here, taken⟩

theorem proper_overrides : n.overrides.Proper := by
  obtain ⟨clean, rfl⟩ := result_of_normalize valid
  exact (Assembly.recordsOverrides_of clean).proper

/-- No subgraph takes a field over from itself. -/
theorem foreign_of_takesOver {target typeName name : String} (takes : n.TakesOver statements target typeName name) :
    target ≠ options.subgraph := by
  obtain ⟨clean, rfl⟩ := result_of_normalize valid
  have v := Assembly.valid_of options.subgraph options.maxOrScopes statements clean
  obtain ⟨known, f, sighted, taken⟩ := takes
  obtain ⟨isExtension, t, looked, unserved, -⟩ := v.looked_iff.mpr ⟨known, sighted⟩
  have foreign := (Assembly.recordsOverrides_of clean).foreign isExtension t f looked unserved
  rw [Assembly.subgraph_of] at foreign
  exact fun same => foreign (same ▸ taken)

theorem localName_of_field? {typeName name : String} (known : (n.types.field? typeName name).isSome = true) :
    n.roots.localName (n.roots.canonicalName typeName) = typeName := by
  obtain ⟨clean, rfl⟩ := result_of_normalize valid
  have v := Assembly.valid_of options.subgraph options.maxOrScopes statements clean
  obtain ⟨entry, c, found, -⟩ := Assembly.exists_of_field? known
  exact v.localName_canonicalName (Table.mem_keys_of_get? found)

end Normal

/-! ## What a subgraph resolves -/

/-- Whether a configuration lists a field of a type among those that the subgraph resolves itself. -/
def Router.Resolves (configuration : Table String Router.Configuration) (canonicalName name : String) : Prop :=
  ∃ c, configuration.get? canonicalName = some c ∧ name ∈ c.fieldNames.toList

instance (configuration : Table String Router.Configuration) (canonicalName name : String) :
    Decidable (Router.Resolves configuration canonicalName name) :=
  inferInstanceAs (Decidable (∃ c ∈ configuration.get? canonicalName, name ∈ c.fieldNames.toList))

/-- Whether a name belongs to the scalars that stand in every document, so that a type of this name is left out. -/
def NormalSubgraph.IsSupportType (n : NormalSubgraph) (typeName : String) : Prop :=
  typeName = Vocabulary.fieldSetScalar ∨ (n.isVersionTwo = true ∧ typeName = Vocabulary.scopeScalar)

instance (n : NormalSubgraph) (typeName : String) : Decidable (n.IsSupportType typeName) :=
  inferInstanceAs (Decidable (_ ∨ _))

namespace Assembly

variable {a : Assembly} {statements : List Statement}

theorem isSupportType_iff {typeName : String} :
    a.isSupportType typeName = true ↔ a.result.IsSupportType typeName := by
  simp [isSupportType, NormalSubgraph.IsSupportType, result]

theorem mem_ownComposites {typeName : String} {entry : TypeEntry} {c : Composite} :
    (typeName, entry, c) ∈ a.ownComposites ↔
      a.types.get? typeName = some entry ∧ entry.composite? = some c ∧ a.isSupportType typeName = false := by
  simp only [ownComposites, ownTypes, List.mem_filterMap, List.mem_filter, Option.map_eq_some_iff, Prod.exists,
    Prod.mk.injEq, Bool.not_eq_true', Table.mem_toList]
  constructor
  · rintro ⟨_, _, ⟨found, own⟩, _, composite, rfl, rfl, rfl⟩
    exact ⟨found, composite, own⟩
  · rintro ⟨found, composite, own⟩
    exact ⟨typeName, entry, ⟨found, own⟩, c, composite, rfl, rfl, rfl⟩

theorem nodup_ownComposites (a : Assembly) : (a.ownComposites.map Prod.fst).Nodup := by
  have table := ((a.types.filter fun name _ => !a.isSupportType name).filterMap
    fun _ entry => entry.composite?.map (entry, ·)).nodup_keys
  simpa [ownComposites, ownTypes, Table.filterMap, Table.filter, Option.map_map, Function.comp_def] using table

/-- Types have canonical names of their own. -/
theorem Valid.nodup_canonicalNames (v : a.Valid statements) :
    (a.ownComposites.map fun e => a.setting.roots.canonicalName e.1).Nodup := by
  have canonical := a.nodup_ownComposites.map_on (f := a.setting.roots.canonicalName)
      fun first one second other same => by
    obtain ⟨⟨_, entry, c⟩, member, rfl⟩ := List.mem_map.mp one
    obtain ⟨⟨_, entry', c'⟩, member', rfl⟩ := List.mem_map.mp other
    exact v.canonicalName_injective (Table.mem_keys_of_get? (mem_ownComposites.mp member).1)
      (Table.mem_keys_of_get? (mem_ownComposites.mp member').1) same
  simpa [List.map_map, Function.comp_def] using canonical

/-- No configuration is written over another, so they stand in the order of their types. -/
theorem Valid.toList_configuration (v : a.Valid statements) : a.configuration.toList = a.ownComposites.map fun e =>
    (a.setting.roots.canonicalName e.1, a.configurationOf e.1 e.2.1 e.2.2) :=
  Table.toList_ofList (by simpa [List.map_map, Function.comp_def] using v.nodup_canonicalNames)

theorem Valid.get?_configuration (v : a.Valid statements) {canonicalName : String} {c : Router.Configuration} :
    a.configuration.get? canonicalName = some c ↔
      ∃ typeName entry composite, (typeName, entry, composite) ∈ a.ownComposites ∧
        a.setting.roots.canonicalName typeName = canonicalName ∧
        a.configurationOf typeName entry composite = c := by
  rw [← Table.mem_toList, v.toList_configuration, List.mem_map]
  simp only [Prod.exists, Prod.mk.injEq]

/-- A type with fields is configured under its canonical name, unless it goes by the name of a scalar of every
document. -/
theorem Valid.get?_configuration_canonicalName (v : a.Valid statements) {typeName : String} {entry : TypeEntry}
    {c : Composite} (registered : a.types.get? typeName = some entry) (composite : entry.composite? = some c) :
    a.configuration.get? (a.setting.roots.canonicalName typeName) =
      if a.isSupportType typeName then none else some (a.configurationOf typeName entry c) := by
  split
  · next support =>
    refine Option.eq_none_iff_forall_ne_some.mpr fun k found => ?_
    -- No other type has the canonical name.
    obtain ⟨other, _, _, own, same, -⟩ := v.get?_configuration.mp found
    obtain ⟨registered', -, outside⟩ := mem_ownComposites.mp own
    obtain rfl :=
      v.canonicalName_injective (Table.mem_keys_of_get? registered') (Table.mem_keys_of_get? registered) same
    exact Bool.false_ne_true (outside.symm.trans support)
  · next outside =>
    have own := mem_ownComposites.mpr ⟨registered, composite, Bool.eq_false_iff.mpr outside⟩
    exact v.get?_configuration.mpr ⟨typeName, entry, c, own, rfl, rfl⟩

end Assembly

/-- A valid subgraph resolves the fields that it has itself, under the canonical names of their types. -/
theorem resolves_iff {options : NormalizationOptions} {statements : List Statement} {n : NormalSubgraph}
    (valid : (normalize options statements).result? = some n) {canonicalName name : String} :
    Router.Resolves n.configuration canonicalName name ↔
      ∃ typeName field, n.roots.canonicalName typeName = canonicalName ∧ ¬ n.IsSupportType typeName ∧
        n.types.field? typeName name = some field ∧ field.isExternal = false := by
  obtain ⟨clean, rfl⟩ := result_of_normalize valid
  generalize same : Assembly.of options.subgraph options.maxOrScopes statements = a at clean ⊢
  have v : a.Valid statements := same ▸ Assembly.valid_of _ _ statements (same ▸ clean)
  have support : ∀ typeName, ¬ a.result.IsSupportType typeName ↔ a.isSupportType typeName = false := by
    intro typeName
    simp [NormalSubgraph.IsSupportType, Assembly.isSupportType, Assembly.result]
  have listed : ∀ {typeName : String} {entry : TypeEntry} {c : Composite},
      name ∈ (a.configurationOf typeName entry c).fieldNames.toList ↔
        ∃ field, c.fields.get? name = some field ∧ field.isExternal = false := by
    intro typeName entry c
    simp [Assembly.configurationOf, Table.mem_toList]
  constructor
  · rintro ⟨c, found, member⟩
    obtain ⟨typeName, entry, composite, own, canonical, rfl⟩ := v.get?_configuration.mp found
    obtain ⟨registered, consists, outside⟩ := Assembly.mem_ownComposites.mp own
    obtain ⟨field, known, resolved⟩ := listed.mp member
    refine ⟨typeName, field, canonical, (support typeName).mpr outside, ?_, resolved⟩
    change (a.types.composite? typeName).bind _ = _
    simp [Registry.composite?, registered, consists, known]
  · rintro ⟨typeName, field, canonical, outside, known, resolved⟩
    have here : (a.types.field? typeName name).isSome = true := Option.isSome_of_eq_some known
    obtain ⟨entry, composite, registered, consists, -⟩ := Assembly.exists_of_field? here
    refine ⟨a.configurationOf typeName entry composite, v.get?_configuration.mpr ⟨typeName, entry, composite,
      Assembly.mem_ownComposites.mpr ⟨registered, consists, (support typeName).mp outside⟩, canonical, rfl⟩,
      listed.mpr ⟨field, ?_, resolved⟩⟩
    change (a.types.composite? typeName).bind _ = _ at known
    simpa [Registry.composite?, registered, consists] using known

end Federation
