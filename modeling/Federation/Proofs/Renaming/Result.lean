import Federation.Proofs.Renaming.Assembly

/-!
# What is handed out of a renamed subgraph

The router gets one configuration of both subgraphs but for the names of concrete types, and the documents have the
same directives on the fields of a type and of the renamed one.
-/

namespace Federation

open Schema

variable {ρ : Renaming} {own : Operation}

/-! ## The router's data -/

/-- What a router knows of a type, with other names for the concrete types. -/
def Router.Configuration.rename (f : String → String) (c : Configuration) : Configuration :=
  { c with concreteTypes? := c.concreteTypes?.map fun names => .ofList (names.toList.map f) }

theorem OrderedSet.ofList_toList_map {f : String → String} (injective : Function.Injective f) (s : NameSet) :
    ofList (s.toList.map f) = s.map f injective :=
  OrderedSet.ext (toList_ofList (s.nodup.map injective))

/-- Values that are changed one by one may be changed before a table is made of them. -/
theorem Table.ofList_map {κ β γ : Type} [DecidableEq κ] (g : β → γ) (entries : List (κ × β)) :
    ofList (entries.map fun e => (e.1, g e.2)) = (ofList entries).map fun _ => g := by
  have fold : ∀ t : Table κ β,
      (entries.map fun e => (e.1, g e.2)).foldl (fun t e => t.insert e.1 e.2) (t.map fun _ => g) =
      (entries.foldl (fun t e => t.insert e.1 e.2) t).map fun _ => g := by
    induction entries with
    | nil => exact fun _ => rfl
    | cons e rest ih =>
      intro t
      rw [List.map_cons, List.foldl_cons, List.foldl_cons, insert_map]
      exact ih (t.insert e.1 e.2)
  exact fold empty

theorem routerKeys_rename {keys keys' : List FieldSet.DeclaredKey}
    (same : List.Forall₂ (FieldSet.DeclaredKey.Mirrors ρ) keys keys') :
    (keys'.filterMap fun k =>
        k.selections?.map fun s => (⟨FieldSet.canonicalText s, k.isResolvable⟩ : Router.Key)) =
      keys.filterMap fun k => k.selections?.map fun s => ⟨FieldSet.canonicalText s, k.isResolvable⟩ :=
  filterMap_of_forall₂ same fun k k' same => by rw [same.selections?, same.isResolvable]

theorem routerSelections_rename {declared declared' : List FieldSet.DeclaredSelection}
    (same : List.Forall₂ (FieldSet.DeclaredSelection.Mirrors ρ) declared declared') :
    (declared'.filterMap fun d =>
        d.selections?.map fun s => (⟨d.field, FieldSet.canonicalText s⟩ : Router.FieldSelection)) =
      declared.filterMap fun d => d.selections?.map fun s => ⟨d.field, FieldSet.canonicalText s⟩ :=
  filterMap_of_forall₂ same fun d d' same => by rw [same.selections?, same.field]

namespace Assembly.Mirrors

variable {a a' : Assembly} (h : a.Mirrors ρ own a')

include h

theorem configurationOf {name : String} (registered : name ∈ a.types.keys) (entry : TypeEntry) (c : Composite) :
    a'.configurationOf (ρ name) (entry.rename ρ) (c.rename ρ) = (a.configurationOf name entry c).rename ρ := by
  have keys (sets : KeySets) := routerKeys_rename (FieldSet.keysOf_rename (ρ := ρ) a.types name sets)
  have provides (sets : FieldSets) := routerSelections_rename (FieldSet.providedOn_rename (ρ := ρ) a.types name sets)
  have requires (sets : FieldSets) := routerSelections_rename (FieldSet.requiredOn_rename (ρ := ρ) a.types name sets)
  have sets : a'.survey.keySets.getD (ρ name) .empty = a.survey.keySets.getD name .empty := by
    rw [h.survey.keySets]
    exact Table.getD_rekey a.survey.keySets name .empty
  have fieldSets : a'.survey.fieldSets.getD (ρ name) .empty = a.survey.fieldSets.getD name .empty := by
    rw [h.survey.fieldSets]
    exact Table.getD_rekey a.survey.fieldSets name .empty
  have isEntityInterface : isEntityInterface (entry.rename ρ) = isEntityInterface entry := by
    simp only [isEntityInterface, TypeEntry.kind_rename, TypeEntry.isEntity_rename, TypeEntry.directives_rename]
  have concrete : (a'.survey.concrete.of (ρ name)) = .ofList ((a.survey.concrete.of name).toList.map ρ) := by
    rw [h.survey.concrete, ConcreteTypes.of_rename, OrderedSet.ofList_toList_map ρ.injective]
  unfold Assembly.configurationOf Router.Configuration.rename
  -- Texts of field sets name fields alone, so they are the same of both.
  simp only [h.setting.roots.canonicalName (h.settled name registered), h.canonicalName_mem_definedRoots registered,
    h.survey.bindings, sets, fieldSets, h.types, keys, provides, requires, isEntityInterface, concrete,
    TypeEntry.isEntity_rename, TypeEntry.kind_rename, Composite.fields_rename, Table.toList_map, List.filter_map,
    List.map_map, Function.comp_def, Field.isExternal_rename,
    Router.Configuration.mk.injEq, true_and, and_true]
  split <;> rfl

/-- Where concrete types get their names from a map, the router gets its configuration from that map. -/
theorem configuration {f : String → String}
    (agree : ∀ e ∈ a.ownComposites, ∀ name ∈ (a.survey.concrete.of e.1).toList, ρ name = f name) :
    a'.configuration = a.configuration.map fun _ c => c.rename f := by
  unfold Assembly.configuration
  rw [← Table.ofList_map, h.ownComposites, List.map_map, List.map_map]
  refine congrArg Table.ofList (List.map_congr_left fun e member => ?_)
  have registered : e.1 ∈ a.types.keys := by
    obtain ⟨own', listed, made⟩ := List.mem_filterMap.mp member
    obtain ⟨c, -, rfl⟩ := Option.map_eq_some_iff.mp made
    exact List.mem_map_of_mem (List.mem_filter.mp listed).1
  simp only [Function.comp_apply, h.setting.roots.canonicalName (h.settled e.1 registered),
    h.configurationOf registered]
  have names := List.map_congr_left (agree e member)
  unfold Router.Configuration.rename Assembly.configurationOf
  dsimp only
  split
  · simp only [Option.map_some, names]
  · rfl

end Assembly.Mirrors

/-! ## Documents -/

/-- The directives on a field of a type of a document. -/
def Schema.Document.fieldDirectives? (document : Document) (typeName name : String) : Option (List Directive) :=
  ((document.type? typeName).bind (·.field? name)).map FieldDefinition.directives

namespace Assembly

variable (a : Assembly) {typeName : String}

theorem name_of_mem_supportTypes {t : TypeDefinition} (member : t ∈ a.supportTypes) :
    t.name ∈ Vocabulary.keptNames := by
  simp only [supportTypes, List.mem_append, List.mem_singleton] at member
  rcases member with (rfl | member) | member
  · decide
  · split at member
    · obtain rfl := List.mem_singleton.mp member
      decide
    · exact absurd member List.not_mem_nil
  · split at member
    · revert t
      decide
    · exact absurd member List.not_mem_nil

theorem isSupportType_of_free (free : typeName ∉ Vocabulary.keptNames) : a.isSupportType typeName = false := by
  have set : typeName ≠ Vocabulary.fieldSetScalar := fun same => free (same ▸ by decide)
  have scope : typeName ≠ Vocabulary.scopeScalar := fun same => free (same ▸ by decide)
  simp [isSupportType, set, scope]

/-- A document defines what is registered. -/
theorem type?_document (free : typeName ∉ Vocabulary.keptNames) :
    a.document.type? typeName = (a.types.get? typeName).map (a.typeDefinition typeName) := by
  -- A free name is not that of a support type, so a definition of it is made of an entry.
  have own : ∀ entries : List (String × TypeEntry), (∀ e ∈ entries, e.1 = typeName → (!a.isSupportType e.1) = true) →
      ((entries.filter fun e => !a.isSupportType e.1).findSome? fun e =>
          if e.1 = typeName then some (a.typeDefinition e.1 e.2) else none) =
        ((entries.find? (·.1 = typeName)).map Prod.snd).map (a.typeDefinition typeName) := by
    intro entries passes
    induction entries with
    | nil => rfl
    | cons e rest ih =>
      have ih := ih fun e' member => passes e' (List.mem_cons_of_mem e member)
      by_cases same : e.1 = typeName
      · subst same
        simp [passes e List.mem_cons_self rfl]
      · rw [List.find?_cons_of_neg (by simpa using same), ← ih, List.filter_cons]
        split
        · simp [same]
        · rfl
  have supports := a.isSupportType_of_free free
  have supported : a.supportTypes.findSome? (fun t => if t.name = typeName then some t else none) = none :=
    List.findSome?_eq_none_iff.mpr fun t member =>
      if_neg fun same : t.name = typeName => free (same ▸ a.name_of_mem_supportTypes member)
  have nothing {α : Type} (xs : List α) : xs.findSome? (fun _ => (none : Option TypeDefinition)) = none :=
    List.findSome?_eq_none_iff.mpr fun _ _ => rfl
  unfold document Document.type? ownTypes
  simp only [List.findSome?_append, List.findSome?_map, Function.comp_def, supported, nothing,
    Option.none_or]
  exact own _ fun e _ same => by rw [same, supports]; rfl

/-- On a field stand its own directives and those that declare its requirement. -/
theorem fieldDirectives?_document (free : typeName ∉ Vocabulary.keptNames) (name : String) :
    a.document.fieldDirectives? typeName name = (a.types.field? typeName name).map fun f =>
      f.directives.flatten ++
        ((a.ledger.records.of (a.setting.roots.canonicalName typeName)).field name).directives := by
  -- Fields are written in their order, so the first of a name is the registered one.
  have listed (record : Authorization.Record) (fields : Table String Field) :
      ((fields.toList.map fun e => fieldDefinition record e.1 e.2).find? (·.name = name)).map
          FieldDefinition.directives =
        (fields.get? name).map fun f => f.directives.flatten ++ (record.field name).directives := by
    unfold Table.get?
    induction fields.toList with
    | nil => rfl
    | cons e rest ih =>
      by_cases same : e.1 = name
      · subst same
        simp [fieldDefinition]
      · simpa [fieldDefinition, same] using ih
  unfold Document.fieldDirectives? Registry.field? Registry.composite?
  rw [a.type?_document free]
  cases a.types.get? typeName with
  | none => rfl
  | some entry =>
    obtain ⟨_, _, _, _, shape⟩ := entry
    cases shape with
    | interface c => exact listed _ c.fields
    | object c => exact listed _ c.fields
    | enum | inputObject | scalar | union => rfl

end Assembly

theorem Assembly.Mirrors.fieldDirectives? {a a' : Assembly} (h : a.Mirrors ρ own a') {typeName : String}
    (settled : ρ.Settles own typeName) (free : ∀ name ∈ [typeName, ρ typeName], name ∉ Vocabulary.keptNames)
    (name : String) :
    a'.document.fieldDirectives? (ρ typeName) name = a.document.fieldDirectives? typeName name := by
  rw [a.fieldDirectives?_document (free _ (by simp)), a'.fieldDirectives?_document (free _ (by simp)), h.types,
    Registry.field?_rename, Option.map_map, h.setting.roots.canonicalName settled, h.ledger.records]
  rfl

end Federation
