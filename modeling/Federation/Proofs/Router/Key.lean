import Federation.Proofs.Directive.Order
import Federation.Proofs.FieldSet.Use
import Federation.Proofs.Normalization.Root
import Federation.Proofs.Registry.Key

/-!
# Keys as a router sees them

Of the keys that the definitions and extensions of a type declare, a router is told the field sets in the order in which
they first come up: as they are written with the entity, in canonical form with the configuration of its type, and by
the fields at their top. Types that go by the name of a scalar of every document have no configuration.
-/

namespace Federation

open Schema

/-- Without repetitions, the elements of a list that are inserted are those at which they first come up. -/
theorem OrderedSet.toList_ofList_eq_eraseDups {α : Type} [DecidableEq α] (as : List α) :
    (ofList as).toList = as.eraseDups := by
  have fresh : ∀ s : OrderedSet α, s.fresh as = (as.filter (!s.contains ·)).eraseDups := by
    induction as with
    | nil => exact fun _ => rfl
    | cons a rest ih =>
      intro s
      have later : rest.filter (!(s.insert a).contains ·) = (rest.filter (!s.contains ·)).filter (!· == a) := by
        rw [List.filter_filter]
        refine List.filter_congr fun b _ => ?_
        rw [Bool.eq_iff_iff]
        simp [contains, and_comm]
      rw [OrderedSet.fresh, ih, later, List.filter_cons]
      cases known : s.contains a with
      | true =>
        -- What equals a known element is filtered out already.
        have absent : (rest.filter (!s.contains ·)).filter (!· == a) = rest.filter (!s.contains ·) := by
          refine List.filter_eq_self.mpr fun b member => ?_
          have unknown := (List.mem_filter.mp member).2
          by_contra same
          obtain rfl : b = a := by simpa using same
          simp [known] at unknown
        simp [absent]
      | false => simp [List.eraseDups_cons]
  rw [ofList, toList_insertAll, fresh]
  simp [contains]

namespace Schema.Directive

/-- A key cannot be resolved just where it says so. -/
theorem isResolvableKey_eq_false_iff {key : Directive} :
    key.isResolvableKey = false ↔ key.argument? Vocabulary.resolvable = some (.boolean false) := by
  unfold isResolvableKey
  cases key.argument? Vocabulary.resolvable with
  | none => simp
  | some value => cases value <;> simp [Value.boolean?]

/-- What an application gives as a required text is a text. -/
theorem Conforms.exists_string? {d : Directive} {location : Location} {definition : DirectiveDefinition}
    (conforms : d.Conforms location definition) {argument : ArgumentDefinition}
    (declared : definition.argument? argument.name = some argument) {typeName : String}
    (type : argument.type = .named typeName true) (noDefault : argument.default? = none)
    (textual : typeName ∈ ["String", Vocabulary.fieldSetScalar, Vocabulary.scopeScalar]) :
    ∃ s, d.string? argument.name = some s := by
  have listed : argument ∈ definition.arguments := List.mem_of_find?_eq_some declared
  have required : argument.isRequired = true := by
    simp [ArgumentDefinition.isRequired, type, noDefault, TypeRef.isNonNull]
  -- An argument that is required is there, and a value that is not null and fits a string type is a string.
  have given := conforms.complete argument listed required
  obtain ⟨value, found⟩ : ∃ value, d.argument? argument.name = some value := by
    obtain ⟨e, member, name⟩ := List.mem_map.mp given
    exact Option.isSome_iff_exists.mp (by simpa [argument?] using ⟨e.2, name ▸ member⟩)
  obtain ⟨⟨name, value⟩, first, rfl⟩ := Option.map_eq_some_iff.mp found
  have name : name = argument.name := by simpa using List.find?_some first
  obtain ⟨argument', declared', admitted⟩ := conforms.declared _ _ (List.mem_of_find?_eq_some first)
  obtain rfl := Option.some.inj (declared.symm.trans (name ▸ declared'))
  rw [type, TypeRef.admits] at admitted
  rw [string?, found, Option.bind_some]
  cases value <;> simp_all [Value.isNull, Value.fits, Value.string?]

/-- A key that may stand in its place has a field set. -/
theorem exists_keyFields? {setting : Setting} {location : Location} {key : Directive}
    (allowed : setting.Allows location key) (name : key.name = Vocabulary.key) :
    ∃ fieldSet, key.keyFields? = some fieldSet := by
  obtain ⟨definition, defined, placed, sound⟩ := allowed
  rw [name] at defined
  have conforms := DirectiveConformance.conforms_iff.mpr ⟨placed, sound⟩
  rw [← Option.some.inj defined] at conforms
  let fields : ArgumentDefinition := ⟨Vocabulary.fields, .named Vocabulary.fieldSetScalar true, none⟩
  exact conforms.exists_string? (show _ = some fields from rfl) rfl rfl (by simp)

end Schema.Directive

/-- What a router is told of a field set, given all keys of its type: its canonical form, and whether the first key that
has it says that the subgraph does not resolve entities by it. -/
structure Router.Key.Tells (k : Router.Key) (keys : List Directive) (fieldSet : String) : Prop where
  selection : ∃ tree, Grammar.readFieldSet? fieldSet = some tree ∧ k.selection = FieldSet.canonicalText tree
  isResolvable : ∃ first, keys.find? (·.keyFields? = some fieldSet) = some first ∧
    (k.isResolvable = false ↔ first.argument? Vocabulary.resolvable = some (.boolean false))

namespace FieldSet

/-- Keys of which nothing is reported can be used. -/
theorem selections?_of_keyErrors {typeName : String} {keys : List DeclaredKey} (quiet : keyErrors typeName keys = [])
    {k : DeclaredKey} (listed : k ∈ keys) {types : Registry} {host : String}
    (outcome : k.outcome = check types .key host k.fieldSet) :
    ∃ tree, k.selections? = some tree ∧ Grammar.readFieldSet? k.fieldSet = some tree := by
  unfold keyErrors at quiet
  dsimp only at quiet
  rw [List.append_eq_nil_iff, ite_isEmpty_eq_nil_iff, ite_isEmpty_eq_nil_iff, List.map_eq_nil_iff,
    List.flatMap_eq_nil_iff, List.filter_eq_nil_iff] at quiet
  obtain ⟨proper, sound⟩ := quiet
  have proper : k.isBlank = false := Bool.eq_false_iff.mpr (proper k listed)
  have sound := List.map_eq_nil_iff.mp (sound k listed)
  unfold DeclaredKey.faults DeclaredKey.selections? at *
  rw [proper] at sound ⊢
  simp only [Bool.false_eq_true, if_false] at sound ⊢
  cases checked : k.outcome with
  | ok tree => exact ⟨tree, rfl, (check_eq_ok_iff.mp (outcome.symm.trans checked)).1⟩
  | error faults =>
    rw [checked] at sound
    exact absurd (outcome.symm.trans (checked.trans (congrArg Except.error sound))) (check_ne_error_nil _ _ _ _)

end FieldSet

namespace Assembly

variable {a : Assembly} {statements : List Statement} {typeName : String} {keys : List Directive}

/-- The field sets that are recorded for a type are those of its keys, where it has fields and keys. -/
theorem keySets_of_hasKeys (recorded : a.survey.RecordsKeys) (kept : (a.types.applied typeName).HasKeys keys) :
    a.survey.keySets.get? typeName =
      if (a.types.composite? typeName).isSome = true ∧ keys ≠ [] then some (.ofKeys keys) else none := by
  rw [recorded.keySets]
  change a.types.declaredKeys typeName = _
  unfold Registry.declaredKeys
  rw [← Registry.isSome_composite?_eq, kept.fieldSets]
  simp only [Bool.and_eq_true, kept.contains_iff]

theorem getD_keySets_of_hasKeys
    (noted : a.survey.keySets.get? typeName =
      if (a.types.composite? typeName).isSome = true ∧ keys ≠ [] then some (.ofKeys keys) else none)
    (composite : (a.types.composite? typeName).isSome = true) :
    a.survey.keySets.getD typeName .empty = .ofKeys keys := by
  rw [Table.getD, noted]
  by_cases unkeyed : keys = []
  · rw [if_neg fun both => both.2 unkeyed, unkeyed]
    rfl
  · rw [if_pos ⟨composite, unkeyed⟩]
    rfl

/-- Where nothing is reported, every recorded key can be used. -/
theorem exists_tree_of_recorded (quiet : a.fieldSetErrors = []) {sets : KeySets}
    (recorded : a.survey.keySets.get? typeName = some sets) {k : FieldSet.DeclaredKey}
    (listed : k ∈ FieldSet.keysOf a.types typeName sets) :
    ∃ tree, k.selections? = some tree ∧ Grammar.readFieldSet? k.fieldSet = some tree := by
  have ofType : FieldSet.keyErrors typeName (FieldSet.keysOf a.types typeName sets) = [] :=
    List.flatMap_eq_nil_iff.mp (List.append_eq_nil_iff.mp quiet).1 (typeName, _)
      (List.mem_map.mpr ⟨(typeName, sets), Table.mem_toList.mpr recorded, rfl⟩)
  have outcome : k.outcome = FieldSet.check a.types .key typeName k.fieldSet := by
    obtain ⟨_, -, rfl⟩ := List.mem_map.mp listed
    rfl
  exact FieldSet.selections?_of_keyErrors ofType listed outcome

/-- The keys of a configuration tell the field sets of the keys one by one. -/
theorem tells_keys (quiet : a.fieldSetErrors = []) (recorded : a.survey.keySets.getD typeName .empty = .ofKeys keys)
    (entry : TypeEntry) (c : Composite) :
    List.Forall₂ (fun fieldSet k => k.Tells keys fieldSet) (Table.keys (KeySets.ofKeys keys))
      (a.configurationOf typeName entry c).keys := by
  have each : ∀ e ∈ Table.toList (KeySets.ofKeys keys), ∃ tree, Grammar.readFieldSet? e.1 = some tree ∧
      FieldSet.DeclaredKey.selections? ⟨typeName, e.1, e.2, FieldSet.check a.types .key typeName e.1⟩ =
        some tree := by
    intro e member
    have noted : a.survey.keySets.get? typeName = some (.ofKeys keys) := by
      unfold Table.getD at recorded
      cases found : a.survey.keySets.get? typeName with
      | none =>
        rw [← recorded, found] at member
        exact absurd member List.not_mem_nil
      | some sets => simpa [found] using recorded
    obtain ⟨tree, usable, read⟩ := exists_tree_of_recorded quiet noted (List.mem_map.mpr ⟨e, member, rfl⟩)
    exact ⟨tree, read, usable⟩
  have resolvable : ∀ e ∈ Table.toList (KeySets.ofKeys keys),
      ∃ first, keys.find? (·.keyFields? = some e.1) = some first ∧ first.isResolvableKey = e.2 := fun e member =>
    Option.map_eq_some_iff.mp ((KeySets.get?_ofKeys keys e.1).symm.trans (Table.mem_toList.mp member))
  unfold configurationOf
  dsimp only
  rw [recorded, FieldSet.keysOf, List.filterMap_map, Table.keys]
  -- Every key is usable, so that the two lists keep step.
  generalize Table.toList (KeySets.ofKeys keys) = entries at each resolvable ⊢
  induction entries with
  | nil => exact .nil
  | cons e rest ih =>
    obtain ⟨⟨tree, read, usable⟩, eachLater⟩ := List.forall_mem_cons.mp each
    obtain ⟨⟨first, found, told⟩, resolvableLater⟩ := List.forall_mem_cons.mp resolvable
    rw [List.map_cons, List.filterMap_cons]
    simp only [Function.comp_def, usable, Option.map_some] at ih ⊢
    refine .cons ⟨⟨tree, read, rfl⟩, first, found, ?_⟩ (ih eachLater resolvableLater)
    rw [← Directive.isResolvableKey_eq_false_iff, told]

/-- The key field names of a type are those at the top of its field sets. -/
theorem keyFieldNames_of_keySets (quiet : a.fieldSetErrors = []) {sets : KeySets}
    (recorded : a.survey.keySets.get? typeName = some sets) (some_key : Table.keys sets ≠ []) :
    ∃ names, a.keyFieldNames.get? typeName = some names ∧ ∀ name, name ∈ names.toList ↔
      ∃ fieldSet ∈ Table.keys sets, ∃ tree, Grammar.readFieldSet? fieldSet = some tree ∧
        [name] ∈ FieldSet.listPaths tree := by
  have usable (k : FieldSet.DeclaredKey) (listed : k ∈ FieldSet.keysOf a.types typeName sets) :=
    exists_tree_of_recorded quiet recorded listed
  have written : Table.keys sets = (FieldSet.keysOf a.types typeName sets).map FieldSet.DeclaredKey.fieldSet := by
    simp [Table.keys, FieldSet.keysOf, Function.comp_def]
  -- Every key is among the valid ones, so that there are some.
  have trees : (FieldSet.keysOf a.types typeName sets).filterMap FieldSet.DeclaredKey.selections? ≠ [] := by
    have listed : FieldSet.keysOf a.types typeName sets ≠ [] := fun none => some_key (by rw [written, none]; rfl)
    obtain ⟨k, listed⟩ := List.exists_mem_of_ne_nil _ listed
    obtain ⟨tree, valid, -⟩ := usable k listed
    exact List.ne_nil_of_mem (List.mem_filterMap.mpr ⟨k, listed, valid⟩)
  have found : a.keyFieldNames.get? typeName = some (.ofList
      (((FieldSet.keysOf a.types typeName sets).filterMap FieldSet.DeclaredKey.selections?).flatMap
        FieldSet.topLevelNames)) := by
    rw [keyFieldNames, Table.get?_filterMap, recorded, Option.bind_some]
    exact if_neg (by simpa using trees)
  refine ⟨_, found, fun name => ?_⟩
  simp only [OrderedSet.mem_ofList, List.mem_flatMap, List.mem_filterMap, FieldSet.mem_topLevelNames]
  constructor
  · rintro ⟨tree, ⟨k, listed, valid⟩, top⟩
    obtain ⟨tree', valid', read⟩ := usable k listed
    obtain rfl := Option.some.inj (valid.symm.trans valid')
    exact ⟨k.fieldSet, written ▸ List.mem_map_of_mem listed, tree, read, top⟩
  · rintro ⟨_, listed, tree, read, top⟩
    obtain ⟨k, among, rfl⟩ := List.mem_map.mp (written ▸ listed)
    obtain ⟨tree', valid, read'⟩ := usable k among
    obtain rfl := Option.some.inj (read.symm.trans read')
    exact ⟨tree, ⟨k, among, valid⟩, top⟩

/-- A type is an entity where it has fields and keys, and its field sets are those of its keys. -/
theorem keyFieldSets_of_hasKeys (recorded : a.survey.RecordsKeys) (kept : (a.types.applied typeName).HasKeys keys) :
    (a.entities.get? typeName).map (·.keyFieldSets.toList) =
      if (a.types.composite? typeName).isSome = true ∧ keys ≠ [] then some (Table.keys (KeySets.ofKeys keys))
      else none := by
  have noted := keySets_of_hasKeys recorded kept
  rw [entities, Table.get?_filterMap]
  unfold Registry.composite? Registry.applied at *
  cases registered : a.types.get? typeName with
  | none => simp
  | some entry =>
    -- A type is an entity just where it has a key, so the table of entities has it just then.
    have isEntity : entry.isEntity = true ↔ keys ≠ [] := by
      simpa [registered, TypeEntry.isEntity] using kept.contains_iff
    simp only [registered, Option.bind_some, Bool.and_eq_true, isEntity] at noted ⊢
    split
    · next keyed =>
      rw [if_pos keyed] at noted
      have distinct : (Table.keys (KeySets.ofKeys keys)).Nodup := (KeySets.ofKeys keys).nodup_keys
      simpa [Table.getD, noted] using OrderedSet.toList_ofList distinct
    · rfl

/-- Each declared key of a valid subgraph has a field set. -/
theorem Valid.exists_keyFields? (v : a.Valid statements) :
    ∀ key ∈ declaredKeys statements typeName, ∃ fieldSet, key.keyFields? = some fieldSet := by
  intro key declared
  obtain ⟨applied, name⟩ := List.mem_filter.mp declared
  obtain ⟨t, defined, applied⟩ := List.mem_flatMap.mp applied
  obtain ⟨⟨isExtension, looked⟩, -⟩ := mem_definitions.mp defined
  exact Directive.exists_keyFields? (v.coherent.allowedOnType isExtension t looked key applied)
    (of_decide_eq_true name)

theorem Valid.isSome_composite?_of_hasFields (v : a.Valid statements) {t : TypeDefinition}
    (defined : t ∈ definitions statements typeName) (hasFields : t.kind.hasFields = true) :
    (a.types.composite? typeName).isSome = true := by
  have known : a.types.kind? typeName = some t.kind := v.coherent.kind?_iff.mpr ⟨t, defined, rfl⟩
  rw [Registry.isSome_composite?_eq, known]
  exact hasFields

/-- Only types with fields have keys. -/
theorem Valid.isSome_composite?_of_key (v : a.Valid statements) (keyed : declaredKeys statements typeName ≠ []) :
    (a.types.composite? typeName).isSome = true := by
  obtain ⟨key, declared⟩ := List.exists_mem_of_ne_nil _ keyed
  obtain ⟨applied, name⟩ := List.mem_filter.mp declared
  obtain ⟨t, defined, applied⟩ := List.mem_flatMap.mp applied
  obtain ⟨⟨isExtension, looked⟩, here⟩ := mem_definitions.mp defined
  obtain ⟨definition, known, placed, -⟩ := v.coherent.allowedOnType isExtension t looked key applied
  rw [of_decide_eq_true name] at known
  rw [← Option.some.inj known] at placed
  refine v.isSome_composite?_of_hasFields defined ?_
  revert placed
  cases t.kind <;> decide

end Assembly

section Normal

variable {options : NormalizationOptions} {statements : List Statement} {n : NormalSubgraph}

/-- A router is told the keys that all definitions and extensions of a type declare, once for each field set and in the
order in which these first come up: as they are written with the entity, in canonical form with the configuration, and
by the fields at their top. Types that go by the name of a scalar of every document have no configuration, and types
without keys none of the three. -/
theorem router_tells_declared_keys (valid : (normalize options statements).result? = some n) (typeName : String) :
    let keys := declaredKeys statements typeName
    let fieldSets := (keys.filterMap Directive.keyFields?).eraseDups
    (∀ key ∈ keys, ∃ fieldSet ∈ fieldSets, key.keyFields? = some fieldSet) ∧
    (keys ≠ [] →
      (∃ e, n.entities.get? typeName = some e ∧ e.keyFieldSets.toList = fieldSets) ∧
      ∃ names, n.keyFieldNames.get? typeName = some names ∧ ∀ name, name ∈ names.toList ↔
        ∃ fieldSet ∈ fieldSets, ∃ tree, Grammar.readFieldSet? fieldSet = some tree ∧
          [name] ∈ FieldSet.listPaths tree) ∧
    (keys = [] → n.entities.get? typeName = none ∧ n.keyFieldNames.get? typeName = none) ∧
    ∀ t ∈ definitions statements typeName, t.kind.hasFields = true →
      if n.IsSupportType typeName then n.configuration.get? (n.roots.canonicalName typeName) = none
      else ∃ k, n.configuration.get? (n.roots.canonicalName typeName) = some k ∧
        List.Forall₂ (fun fieldSet key => key.Tells keys fieldSet) fieldSets k.keys := by
  obtain ⟨clean, rfl⟩ := result_of_normalize valid
  have v := Assembly.valid_of options.subgraph options.maxOrScopes statements clean
  have kept := Assembly.hasKeys_applied v typeName
  have recorded : (Assembly.of options.subgraph options.maxOrScopes statements).survey.RecordsKeys :=
    Survey.recordsKeys_walk ..
  have noted := Assembly.keySets_of_hasKeys recorded kept
  have entities := Assembly.keyFieldSets_of_hasKeys recorded kept
  simp only [Assembly.errors, List.append_eq_nil_iff] at clean
  obtain ⟨⟨⟨⟨⟨-, quiet⟩, -⟩, -⟩, -⟩, -⟩ := clean
  -- From here on only what is recorded of the keys counts, not the statements that it was recorded from.
  generalize Assembly.of options.subgraph options.maxOrScopes statements = a at v noted entities quiet ⊢
  have written : ∀ key ∈ declaredKeys statements typeName, ∃ fieldSet, key.keyFields? = some fieldSet :=
    v.exists_keyFields?
  have composite : declaredKeys statements typeName ≠ [] → (a.types.composite? typeName).isSome = true :=
    v.isSome_composite?_of_key
  generalize declaredKeys statements typeName = keys at noted entities written composite ⊢
  have fieldSets : (keys.filterMap Directive.keyFields?).eraseDups = Table.keys (KeySets.ofKeys keys) := by
    rw [← OrderedSet.toList_ofList_eq_eraseDups, KeySets.keys_ofKeys]
  dsimp only
  rw [fieldSets]
  refine ⟨fun key declared => ?_, fun keyed => ⟨?entity, ?names⟩, fun unkeyed => ?without,
    fun t defined hasFields => ?configuration⟩
  · obtain ⟨fieldSet, named⟩ := written key declared
    exact ⟨fieldSet, KeySets.mem_keys_ofKeys.mpr ⟨key, declared, named⟩, named⟩
  case entity =>
    rw [if_pos ⟨composite keyed, keyed⟩] at entities
    exact Option.map_eq_some_iff.mp entities
  case names =>
    rw [if_pos ⟨composite keyed, keyed⟩] at noted
    refine Assembly.keyFieldNames_of_keySets quiet noted fun none => ?_
    obtain ⟨key, declared⟩ := List.exists_mem_of_ne_nil keys keyed
    obtain ⟨fieldSet, named⟩ := written key declared
    exact absurd (none ▸ KeySets.mem_keys_ofKeys.mpr ⟨key, declared, named⟩) List.not_mem_nil
  case without =>
    rw [if_neg fun both => both.2 unkeyed] at entities noted
    refine ⟨Option.map_eq_none_iff.mp entities, ?_⟩
    change a.keyFieldNames.get? typeName = none
    rw [Assembly.keyFieldNames, Table.get?_filterMap, noted]
    rfl
  case configuration =>
    have composite := v.isSome_composite?_of_hasFields defined hasFields
    obtain ⟨c, known⟩ := Option.isSome_iff_exists.mp composite
    obtain ⟨entry, registered, consists⟩ := Option.bind_eq_some_iff.mp known
    have found : a.result.configuration.get? (a.result.roots.canonicalName typeName) = _ :=
      v.get?_configuration_canonicalName registered consists
    rw [found]
    -- A support type has no configuration, whatever its keys.
    split
    · next support => exact if_pos (Assembly.isSupportType_iff.mpr support)
    · next outside =>
      exact ⟨_, if_neg (outside ∘ Assembly.isSupportType_iff.mp),
        Assembly.tells_keys quiet (Assembly.getD_keySets_of_hasKeys noted composite) entry c⟩

/-- A key with a field set and, where it is told, whether the subgraph resolves entities by it. -/
def keyOn (fieldSet : String) (resolvable? : Option Bool) : Directive :=
  ⟨Vocabulary.key, (Vocabulary.fields, .string fieldSet) ::
    resolvable?.toList.map fun resolvable => (Vocabulary.resolvable, .boolean resolvable)⟩

/-- A product with keys on its definition and on its extension, of which one is repeated in each. -/
def productSubgraph : List Statement :=
  let field (name type : String) : FieldDefinition := ⟨name, none, [], .named type true, []⟩
  [.define (.type ⟨"Product", none, [keyOn "sku  maker\x7bname\x7d" none, keyOn "sku" (some false)],
      .object [] [field "sku" "ID", field "maker" "Maker"]⟩),
    .extendType ⟨"Product", none, [keyOn "sku" none, keyOn "code" (some true)], .object [] [field "code" "ID"]⟩,
    .define (.type ⟨"Maker", none, [], .object [] [field "name" "String"]⟩)]

theorem router_tells_declared_keys_product : ∃ n k, (normalize .default productSubgraph).result? = some n ∧
    (∃ e, n.entities.get? "Product" = some e ∧ e.keyFieldSets.toList = ["sku  maker\x7bname\x7d", "sku", "code"]) ∧
    n.configuration.get? (n.roots.canonicalName "Product") = some k ∧
    List.Forall₂ (fun fieldSet key => key.Tells (declaredKeys productSubgraph "Product") fieldSet)
      ["sku  maker\x7bname\x7d", "sku", "code"] k.keys ∧
    n.entities.get? "Maker" = none := by
  have checked : (normalize .default productSubgraph).result?.any (fun n => !decide (n.IsSupportType "Product")) =
      true := by
    decide +kernel
  have written : ((declaredKeys productSubgraph "Product").filterMap Directive.keyFields?).eraseDups =
      ["sku  maker\x7bname\x7d", "sku", "code"] := by
    decide +kernel
  obtain ⟨n, valid, checked⟩ := (Option.any_eq_true _ _).mp checked
  obtain ⟨-, entity, -, configured⟩ := router_tells_declared_keys valid "Product"
  obtain ⟨-, -, unkeyed, -⟩ := router_tells_declared_keys valid "Maker"
  obtain ⟨t, defined⟩ := List.exists_mem_of_ne_nil (definitions productSubgraph "Product") (by decide)
  have object : ∀ t ∈ definitions productSubgraph "Product", t.kind.hasFields = true := by decide
  have configured := configured t defined (object t defined)
  rw [if_neg (by simpa using checked), written] at configured
  obtain ⟨k, found, tells⟩ := configured
  exact ⟨n, k, valid, written ▸ (entity (by decide)).1, found, tells, (unkeyed rfl).1⟩

/-- Keys on an object with the name of a scalar of every document, and on one that a federation serves by itself. -/
def servedSubgraph : List Statement :=
  let keyed (name : String) : Statement :=
    .define (.type ⟨name, none, [keyOn "id" none], .object [] [⟨"id", none, [], .named "ID" true, []⟩]⟩)
  [keyed Vocabulary.fieldSetScalar, keyed Vocabulary.serviceType]

/-- The first of the two is an entity without a configuration, and the second is no entity. -/
theorem keys_untold_served : ∃ n, (normalize .default servedSubgraph).result? = some n ∧
    (servedSubgraph.filterMap Statement.type?).map (fun t => (t.name, t.kind, !(keysAmong t.directives).isEmpty)) =
      [(Vocabulary.fieldSetScalar, .object, true), (Vocabulary.serviceType, .object, true)] ∧
    (n.entities.get? Vocabulary.fieldSetScalar).map (·.keyFieldSets.toList) = some ["id"] ∧
    n.configuration.get? (n.roots.canonicalName Vocabulary.fieldSetScalar) = none ∧
    n.entities.get? Vocabulary.serviceType = none := by
  have checked : (normalize .default servedSubgraph).result?.any (fun n =>
      decide ((n.entities.get? Vocabulary.fieldSetScalar).map (·.keyFieldSets.toList) = some ["id"]) &&
        (n.configuration.get? (n.roots.canonicalName Vocabulary.fieldSetScalar)).isNone &&
        (n.entities.get? Vocabulary.serviceType).isNone) = true := by
    decide +kernel
  obtain ⟨n, valid, checked⟩ := (Option.any_eq_true _ _).mp checked
  simp only [Bool.and_eq_true, decide_eq_true_eq, Option.isNone_iff_eq_none] at checked
  obtain ⟨⟨entity, unconfigured⟩, noEntity⟩ := checked
  exact ⟨n, valid, by decide, entity, unconfigured, noEntity⟩

end Normal

end Federation
