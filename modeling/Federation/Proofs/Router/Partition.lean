import Federation.Proofs.Normalization.Root

/-!
# What a router is told of each type

The configuration of a valid subgraph has one entry for each object and interface, under its canonical name. The entry
splits the fields of the type between those that the subgraph resolves and those that it leaves to others, and queries
may start there just at entities and root types.
-/

namespace Federation

open Schema

/-- The objects and interfaces of a subgraph, without those that go by the name of a scalar of every document. -/
def NormalSubgraph.composites (n : NormalSubgraph) : List (String × TypeEntry × Composite) :=
  (n.types.toList.filter fun e => !decide (n.IsSupportType e.1)).filterMap fun e =>
    e.2.composite?.map (e.1, e.2, ·)

/-- Each field of a type is on one side of its configuration, in the order of the type. -/
structure Router.Configuration.Splits (k : Router.Configuration) (c : Composite) : Prop where
  own : k.fieldNames.toList = (c.fields.toList.filter fun e => !e.2.isExternal).map Prod.fst
  external : k.externalFieldNames.toList = (c.fields.toList.filter fun e => e.2.isExternal).map Prod.fst
  disjoint : ∀ name ∈ k.fieldNames.toList, name ∉ k.externalFieldNames.toList
  covers : ∀ name, name ∈ k.fieldNames.toList ∨ name ∈ k.externalFieldNames.toList ↔ name ∈ c.fields.keys
  mem_external_iff : ∀ name, name ∈ k.externalFieldNames.toList ↔
    (c.fields.get? name).any (·.isExternal) = true

namespace Assembly

variable {a : Assembly} {statements : List Statement}

theorem composites_result : a.result.composites = a.ownComposites := by
  have support : ∀ typeName, a.isSupportType typeName = decide (a.result.IsSupportType typeName) := fun typeName => by
    rw [Bool.eq_iff_iff, decide_eq_true_eq, isSupportType_iff]
  simp [NormalSubgraph.composites, ownComposites, ownTypes, support, result]

theorem names_filter (fields : Table String Field) (keep : Field → Bool) :
    (OrderedSet.ofList ((fields.toList.filter fun e => keep e.2).map Prod.fst)).toList =
      (fields.toList.filter fun e => keep e.2).map Prod.fst :=
  OrderedSet.toList_ofList ((List.filter_sublist.map Prod.fst).nodup fields.nodup_keys)

theorem mem_names_filter (fields : Table String Field) (keep : Field → Bool) (name : String) :
    name ∈ (fields.toList.filter fun e => keep e.2).map Prod.fst ↔ (fields.get? name).any keep = true := by
  simp [Table.mem_toList, Option.any_eq_true]

theorem splits_configurationOf (typeName : String) (entry : TypeEntry) (c : Composite) :
    (a.configurationOf typeName entry c).Splits c := by
  -- Both lists are filtered from the same fields, by a test and by its negation.
  have own : (a.configurationOf typeName entry c).fieldNames.toList =
      (c.fields.toList.filter fun e => !e.2.isExternal).map Prod.fst := names_filter c.fields fun f => !f.isExternal
  have external : (a.configurationOf typeName entry c).externalFieldNames.toList =
      (c.fields.toList.filter fun e => e.2.isExternal).map Prod.fst := names_filter c.fields Field.isExternal
  have inOwn (name : String) := mem_names_filter c.fields (fun f => !f.isExternal) name
  have inExternal (name : String) := mem_names_filter c.fields Field.isExternal name
  refine ⟨own, external, fun name inside => ?_, fun name => ?_, fun name => ?_⟩
  · rw [own, inOwn] at inside
    rw [external, inExternal]
    cases known : c.fields.get? name <;> simp_all
  · rw [own, external, inOwn, inExternal, ← Table.get?_isSome_iff]
    cases c.fields.get? name with
    | none => simp
    | some field => cases field.isExternal <;> simp
  · rw [external, inExternal]

/-- The configuration lists the types in their order. -/
theorem Valid.keys_configuration (v : a.Valid statements) :
    a.configuration.keys = a.ownComposites.map fun e => a.setting.roots.canonicalName e.1 := by
  rw [Table.keys, v.toList_configuration, List.map_map]
  rfl

/-- Queries start at entities and at root types. -/
theorem Valid.isRootNode_configurationOf (v : a.Valid statements) {typeName : String} {entry : TypeEntry}
    {c : Composite} (own : (typeName, entry, c) ∈ a.ownComposites) :
    (a.configurationOf typeName entry c).isRootNode = true ↔
      entry.isEntity = true ∨ (entry.kind = .object ∧ a.setting.roots.isRootName typeName = true) := by
  obtain ⟨registered, -, -⟩ := mem_ownComposites.mp own
  have root := v.canonicalName_mem_definedRoots_iff (Table.mem_keys_of_get? registered)
  have kind : a.types.kind? typeName = some entry.kind := by simp [Registry.kind?, registered]
  have object := v.kind_of_isRootName kind
  simp only [configurationOf, Bool.or_eq_true, decide_eq_true_eq, root]
  exact or_congr_right ⟨fun root => ⟨object root, root⟩, And.right⟩

end Assembly

section Normal

variable {options : NormalizationOptions} {statements : List Statement} {n : NormalSubgraph}

/-- The configuration of a valid subgraph is a partition of what is registered: each object and interface has an entry
of its own, which stands in its place under its canonical name and splits its fields. -/
theorem configuration_partitions (valid : (normalize options statements).result? = some n) :
    (∀ e ∈ n.composites, ∀ e' ∈ n.composites,
        n.roots.canonicalName e.1 = n.roots.canonicalName e'.1 → e = e') ∧
      n.configuration.keys = n.composites.map (fun e => n.roots.canonicalName e.1) ∧
      ∀ typeName entry c, (typeName, entry, c) ∈ n.composites →
        ∃ k, n.configuration.get? (n.roots.canonicalName typeName) = some k ∧
          k.typeName = n.roots.canonicalName typeName ∧ k.Splits c ∧
          (k.isRootNode = true ↔
            entry.isEntity = true ∨ (entry.kind = .object ∧ n.roots.isRootName typeName = true)) := by
  obtain ⟨clean, rfl⟩ := result_of_normalize valid
  have v := Assembly.valid_of options.subgraph options.maxOrScopes statements clean
  rw [Assembly.composites_result]
  refine ⟨fun e member e' member' same => ?_, v.keys_configuration, fun typeName entry c own => ?_⟩
  · exact List.inj_on_of_nodup_map v.nodup_canonicalNames member member' same
  · exact ⟨_, v.get?_configuration.mpr ⟨typeName, entry, c, own, rfl, rfl⟩, rfl, Assembly.splits_configurationOf ..,
      v.isRootNode_configurationOf own⟩

/-- A library whose root type has a name of its own and whose books have a key that another subgraph resolves. -/
def librarySubgraph : List Statement :=
  let field (name : String) (type : TypeRef) (directives : List Directive) : FieldDefinition :=
    { name, description := none, arguments := [], type, directives }
  [.define (.schema ⟨[], [(.query, "Library")]⟩),
    .define (.type ⟨"Library", none, [], .object [] [field "books" (.list (.named "Book" true) true) []]⟩),
    .define (.type ⟨"Book", none, [⟨Vocabulary.key, [(Vocabulary.fields, .string "isbn")]⟩], .object []
      [field "isbn" (.named "ID" true) [⟨Vocabulary.external, []⟩], field "title" (.named "String" false) []]⟩)]

theorem configuration_partitions_library : ∃ n, (normalize .default librarySubgraph).result? = some n ∧
    n.configuration.keys = ["Query", "Book"] ∧
    ∀ typeName entry c, (typeName, entry, c) ∈ n.composites →
      ∃ k, n.configuration.get? (n.roots.canonicalName typeName) = some k ∧ k.Splits c := by
  have listed : (normalize .default librarySubgraph).result?.any (fun n =>
      n.composites.map (fun e => n.roots.canonicalName e.1) = ["Query", "Book"]) = true := by
    decide +kernel
  obtain ⟨n, valid, names⟩ := (Option.any_eq_true _ _).mp listed
  obtain ⟨-, keys, entries⟩ := configuration_partitions valid
  refine ⟨n, valid, keys.trans (of_decide_eq_true names), fun typeName entry c own => ?_⟩
  obtain ⟨k, found, -, splits, -⟩ := entries typeName entry c own
  exact ⟨k, found, splits⟩

end Normal

end Federation
