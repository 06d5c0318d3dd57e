import Federation.Proofs.Authorization.Recorded
import Federation.Proofs.Renaming.Exchange
import Federation.Proofs.Renaming.Result
import Federation.Proofs.Renaming.Schema

/-!
# Root types under another name

The default root type of an operation is given a fresh name, which the schema declares. The subgraph is valid under
the one name where it is under the other, and the router's data and the requirements are the same, unless an interface
of the root type has a requirement of its own: what interfaces hand down is recorded under the own name of a type.
-/

namespace Federation

open Schema
open Authorization

/-- The first name replaced by the second. -/
def replacing (oldName newName name : String) : String := if name = oldName then newName else name

/-- A text under a new name of the default root type of an operation, with a schema in it that declares the name. -/
def renameRoot (own : Operation) (newName : String) (first rest : List Statement) : List Statement :=
  first.map (·.rename (replacing own.defaultTypeName newName)) ++
    .define (.schema ⟨[], [(own, newName)]⟩) :: rest.map (·.rename (replacing own.defaultTypeName newName))

/-- A text with a root type of default name, and a name that it may have instead. -/
structure FreshRootName (own : Operation) (newName : String) (statements : List Statement) : Prop where
  defined : ∃ t ∈ definitions statements own.defaultTypeName, t.kind = .object
  /-- Where a schema declares a root type of the operation, it is the default one. -/
  default : ∀ x ∈ statements, ∀ e ∈ Overview.rootsIn x, e.1 = own → e.2 = own.defaultTypeName
  plain : ∀ x ∈ statements, ∀ name ∈ x.typeNames, '.' ∉ name.toList
  fresh : ∀ x ∈ statements, newName ∉ x.typeNames
  undotted : '.' ∉ newName.toList
  free : newName ∉ Vocabulary.keptNames
  /-- The name is not the default one of an operation for which a schema declares a root type. -/
  undeclared : ∀ x ∈ statements, ∀ e ∈ Overview.rootsIn x, newName ≠ e.1.defaultTypeName

/-- Whether no schema makes the default root type of an operation that of another one. -/
def IsUnshared (own : Operation) (statements : List Statement) : Prop :=
  ∀ x ∈ statements, ∀ e ∈ Overview.rootsIn x, e.2 = own.defaultTypeName → e.1 = own

/-- Whether the directives on an interface that the type implements amount to a requirement. -/
def IsGuardedByInterface (limit : Nat) (statements : List Statement) (typeName : String) : Prop :=
  ∃ t ∈ definitions statements typeName, ∃ interfaceName ∈ t.body.listedNames,
    Declared.on limit ((definitions statements interfaceName).flatMap TypeDefinition.directives) matches
      .requirement _

/-- Results that are the same but for the name of a root type. -/
structure NormalSubgraph.SameButRoot (own : Operation) (newName : String) (n n' : NormalSubgraph) : Prop where
  configuration : n'.configuration =
    n.configuration.map fun _ c => c.rename (replacing own.defaultTypeName newName)
  authorization : n'.authorization = n.authorization
  overrides : n'.overrides = n.overrides
  directives : ∀ name, n'.document.fieldDirectives? newName name =
    n.document.fieldDirectives? own.defaultTypeName name

namespace Schema.Operation

theorem defaultTypeName_plain (operation : Operation) : '.' ∉ operation.defaultTypeName.toList := by
  cases operation <;> decide

theorem defaultTypeName_free (operation : Operation) : operation.defaultTypeName ∉ Vocabulary.keptNames := by
  cases operation <;> decide

end Schema.Operation

/-- A type is mentioned by each of its definitions. -/
theorem mentioned_of_type? {x : Statement} {t : TypeDefinition} (defines : x.type? = some t) :
    t.name ∈ x.typeNames := by
  rcases x with (_ | _ | t') | _ | t'
  case define.type => obtain rfl := Option.some.inj defines; exact List.mem_cons_self
  case extendType => obtain rfl := Option.some.inj defines; exact List.mem_cons_self
  all_goals exact nomatch defines

theorem mem_definitions_of_free {statements : List Statement} {typeName : String}
    (free : typeName ∉ Vocabulary.keptNames) {t : TypeDefinition} :
    t ∈ definitions statements typeName ↔ t ∈ statements.filterMap Statement.type? ∧ t.name = typeName := by
  simp only [definitions, List.mem_filter, Bool.and_eq_true, decide_eq_true_eq, Bool.not_eq_true']
  refine and_congr_right fun _ => ⟨And.left, fun same => ⟨same, ?_⟩⟩
  have service : typeName ≠ Vocabulary.serviceType := fun same => free (same ▸ by decide)
  have entity : typeName ≠ Vocabulary.entityUnion := fun same => free (same ▸ by decide)
  simp [Survey.isReservedType, same, service, entity]

namespace FreshRootName

variable {own : Operation} {newName : String} {statements : List Statement} (h : FreshRootName own newName statements)

include h

/-- The old name and the new one change places. -/
def exchange : Renaming :=
  .exchange own.defaultTypeName newName
    (by simpa using ⟨own.defaultTypeName_plain, h.undotted⟩) (by simpa using ⟨own.defaultTypeName_free, h.free⟩)

theorem exchange_eq {name : String} (plain : '.' ∉ name.toList) (other : name ≠ newName) :
    h.exchange name = replacing own.defaultTypeName newName name := by
  rw [exchange, Renaming.exchange_of_plain plain, if_neg other, replacing]

theorem ne_default : newName ≠ own.defaultTypeName := by
  obtain ⟨t, defines, -⟩ := h.defined
  obtain ⟨member, named⟩ := (mem_definitions_of_free own.defaultTypeName_free).mp defines
  obtain ⟨x, listed, found⟩ := List.mem_filterMap.mp member
  exact fun same => h.fresh x listed (same.trans named.symm ▸ mentioned_of_type? found)

theorem exchange_default : h.exchange own.defaultTypeName = newName :=
  (h.exchange_eq own.defaultTypeName_plain h.ne_default.symm).trans (if_pos rfl)

theorem exchange_of_ne {name : String} (plain : '.' ∉ name.toList) (other : name ≠ newName)
    (different : name ≠ own.defaultTypeName) : h.exchange name = name :=
  (h.exchange_eq plain other).trans (if_neg different)

theorem exchange_mentioned {x : Statement} (member : x ∈ statements) {name : String}
    (mentioned : name ∈ x.typeNames) :
    h.exchange name = replacing own.defaultTypeName newName name :=
  h.exchange_eq (h.plain x member name mentioned) fun same => h.fresh x member (same ▸ mentioned)

theorem settles_mentioned {x : Statement} (member : x ∈ statements) {name : String} (mentioned : name ∈ x.typeNames) :
    h.exchange.Settles own name := by
  by_cases same : name = own.defaultTypeName
  · exact Or.inl same
  · exact Or.inr ((h.exchange_mentioned member mentioned).trans (if_neg same))

theorem moved : h.exchange own.defaultTypeName ≠ own.defaultTypeName :=
  h.exchange_default.symm ▸ h.ne_default

theorem others (operation : Operation) (different : operation ≠ own) :
    h.exchange operation.defaultTypeName = operation.defaultTypeName ∨
      h.exchange own.defaultTypeName = operation.defaultTypeName := by
  by_cases gained : newName = operation.defaultTypeName
  · exact .inr (h.exchange_default.trans gained)
  · exact .inl (h.exchange_of_ne operation.defaultTypeName_plain (Ne.symm gained) fun same =>
      different (Operation.defaultTypeName_injective same))

end FreshRootName

/-! ## Surveys -/

theorem Schema.Statement.type?_rename (f : String → String) (x : Statement) :
    (x.rename f).type? = x.type?.map (·.rename f) := by
  rcases x with (_ | _ | _) | _ | _ <;> rfl

/-- A schema without directives leaves a survey as it is. -/
theorem Survey.sightSchema_bare (setting : Setting) (s : Survey) (operationTypes : List (Operation × String)) :
    s.sightSchema setting ⟨[], operationTypes⟩ = s := by
  simp [sightSchema, takeIn, Intake.run]

/-- A schema that only declares root types does not keep surveys from being alike. -/
theorem Survey.walk_mirrors {ρ : Renaming} {own : Operation} {setting setting' : Setting}
    (alike : setting.Mirrors ρ own setting') {errors errors' : List Error} (same : errors' = [] ↔ errors = [])
    {first rest : List Statement}
    (settled : ∀ x ∈ first ++ rest, ∀ t, x.type? = some t →
      ρ.Settles own t.name ∧ (t.kind.isLeaf = true → ρ t.name = t.name))
    (operationTypes : List (Operation × String)) :
    (walk setting errors (first ++ rest)).Mirrors ρ (walk setting' errors' (first.map (·.rename ρ) ++
      .define (.schema ⟨[], operationTypes⟩) :: rest.map (·.rename ρ))) := by
  have before := (start_mirrors same).steps alike fun x member => settled x (List.mem_append_left rest member)
  have after := before.steps alike fun x member => settled x (List.mem_append_right first member)
  unfold walk
  rw [List.foldl_append, List.foldl_append, List.foldl_cons]
  dsimp only [step]
  rwa [sightSchema_bare]

namespace FreshRootName

variable {own : Operation} {newName : String} {first rest : List Statement}
  (h : FreshRootName own newName (first ++ rest)) (unshared : IsUnshared own (first ++ rest)) (subgraph : String)
  (maxOrScopes : Nat)

include h

theorem renameRoot_eq : renameRoot own newName first rest = first.map (·.rename h.exchange) ++
    .define (.schema ⟨[], [(own, h.exchange own.defaultTypeName)]⟩) :: rest.map (·.rename h.exchange) := by
  have same : ∀ x ∈ first ++ rest, x.rename (replacing own.defaultTypeName newName) = x.rename h.exchange :=
    fun x member => Statement.rename_congr fun name mentioned => (h.exchange_mentioned member mentioned).symm
  rw [renameRoot, h.exchange_default, List.map_congr_left fun x member => same x (List.mem_append_left rest member),
    List.map_congr_left fun x member => same x (List.mem_append_right first member)]

theorem mem_definitions_renameRoot {t : TypeDefinition}
    (defines : t ∈ definitions (first ++ rest) own.defaultTypeName) :
    t.rename h.exchange ∈ definitions (renameRoot own newName first rest) newName := by
  rw [mem_definitions_of_free own.defaultTypeName_free, List.filterMap_append, List.mem_append] at defines
  rw [mem_definitions_of_free h.free, h.renameRoot_eq, List.filterMap_append, List.filterMap_cons, List.mem_append]
  have renamed {statements : List Statement} (member : t ∈ statements.filterMap Statement.type?) :
      t.rename h.exchange ∈ (statements.map (·.rename h.exchange)).filterMap Statement.type? := by
    obtain ⟨x, listed, found⟩ := List.mem_filterMap.mp member
    refine List.mem_filterMap.mpr ⟨x.rename h.exchange, List.mem_map_of_mem listed, ?_⟩
    rw [Statement.type?_rename, found, Option.map_some]
  obtain ⟨member, named⟩ := defines
  refine ⟨member.imp renamed renamed, ?_⟩
  rw [TypeDefinition.name_rename, named, h.exchange_default]

/-- What is known of a type that both texts define as one kind. -/
theorem kind_eq_object
    (clean : (Assembly.of subgraph maxOrScopes (first ++ rest)).survey.errors = [] ∨
      (Assembly.of subgraph maxOrScopes (renameRoot own newName first rest)).survey.errors = [])
    {t : TypeDefinition} (defines : t ∈ definitions (first ++ rest) own.defaultTypeName) : t.kind = .object := by
  obtain ⟨root, given, object⟩ := h.defined
  rcases clean with clean | clean
  · have coherent := Survey.coherent_walk clean
    have kind := coherent.kind?_iff.mpr ⟨t, defines, rfl⟩
    rw [coherent.kind?_iff.mpr ⟨root, given, object⟩] at kind
    exact (Option.some.inj kind).symm
  · have coherent := Survey.coherent_walk clean
    have kind := coherent.kind?_iff.mpr ⟨_, h.mem_definitions_renameRoot defines, t.kind_rename⟩
    rw [coherent.kind?_iff.mpr ⟨_, h.mem_definitions_renameRoot given, root.kind_rename.trans object⟩] at kind
    exact (Option.some.inj kind).symm

include unshared

theorem setting_mirrors :
    (Setting.of subgraph maxOrScopes (first ++ rest)).1.Mirrors h.exchange own
        (Setting.of subgraph maxOrScopes (renameRoot own newName first rest)).1 ∧
      ((Setting.of subgraph maxOrScopes (renameRoot own newName first rest)).2 = [] ↔
        (Setting.of subgraph maxOrScopes (first ++ rest)).2 = []) := by
  rw [h.renameRoot_eq]
  exact Setting.of_mirrors subgraph maxOrScopes h.moved h.others fun x member e declared =>
    ⟨⟨h.default x member e declared, unshared x member e declared⟩,
      h.exchange_default.symm ▸ h.undeclared x member e declared⟩

theorem survey_mirrors (objects : ∀ t ∈ definitions (first ++ rest) own.defaultTypeName, t.kind = .object) :
    (Assembly.of subgraph maxOrScopes (first ++ rest)).survey.Mirrors h.exchange
      (Assembly.of subgraph maxOrScopes (renameRoot own newName first rest)).survey := by
  obtain ⟨alike, errors⟩ := h.setting_mirrors unshared subgraph maxOrScopes
  -- No leaf type is renamed: the exchanged name is that of an object wherever it is defined.
  have settled : ∀ x ∈ first ++ rest, ∀ t, x.type? = some t →
      h.exchange.Settles own t.name ∧ (t.kind.isLeaf = true → h.exchange t.name = t.name) := by
    intro x member t found
    have mentioned := mentioned_of_type? found
    refine ⟨h.settles_mentioned member mentioned, fun leaf => ?_⟩
    refine (h.settles_mentioned member mentioned).resolve_left fun named => ?_
    have defines := (mem_definitions_of_free own.defaultTypeName_free).mpr
      ⟨List.mem_filterMap.mpr ⟨x, member, found⟩, named⟩
    rw [objects t defines] at leaf
    exact absurd leaf Bool.noConfusion
  have walked := Survey.walk_mirrors alike errors settled [(own, h.exchange own.defaultTypeName)]
  rwa [← h.renameRoot_eq] at walked

end FreshRootName

/-! ## Requirements -/

section Guarded

variable {a : Assembly} {statements : List Statement}
  (coherent : Survey.Coherent a.setting (Look.all statements) a.survey) {typeName : String}

include coherent

/-- What is concrete for an interface with a requirement of its own is guarded by it. -/
theorem isGuardedByInterface_of_concrete {interfaceName : String} (covers : a.covers interfaceName = true)
    (concrete : typeName ∈ (a.survey.concrete.of interfaceName).toList) :
    a.types.kind? typeName = some .object ∧ IsGuardedByInterface a.setting.maxOrScopes statements typeName := by
  have interface := Assembly.Valid.kind?_of_covers covers
  obtain ⟨r, level⟩ := Assembly.Valid.typeLevel_of_covers covers
  rcases (coherent.concrete interfaceName typeName).mp concrete with ⟨union, -⟩ | implemented
  · exact absurd (interface.symm.trans union) (by decide)
  obtain ⟨object, t, defines, listed⟩ := coherent.mem_implemented_iff.mp implemented
  have asks := (coherent.typeLevel_eq a.setting.maxOrScopes interface rfl).symm.trans level
  exact ⟨object, t, defines, interfaceName, listed, by rw [asks]⟩

theorem exists_covers_of_guarded (object : a.types.kind? typeName = some .object)
    (interfaces : ∀ i ∈ a.types.implemented typeName, a.types.kind? i = some .interface)
    (guarded : IsGuardedByInterface a.setting.maxOrScopes statements typeName) :
    ∃ i, a.covers i = true ∧ typeName ∈ (a.survey.concrete.of i).toList := by
  obtain ⟨t, defines, i, listed, asks⟩ := guarded
  have implemented := coherent.mem_implemented_iff.mpr ⟨object, t, defines, listed⟩
  have interface := interfaces i implemented
  have level : typeLevel a.setting.maxOrScopes (a.types.applied i) = _ :=
    coherent.typeLevel_eq a.setting.maxOrScopes interface rfl
  refine ⟨i, ?_, (coherent.concrete i typeName).mpr (.inr implemented)⟩
  cases amount : Declared.on a.setting.maxOrScopes
      ((definitions statements i).flatMap TypeDefinition.directives) with
  | requirement r => simp [Assembly.covers, interface, level, amount]
  | nothing | overLimit => simp [amount] at asks

end Guarded

/-- Where settings and surveys are alike and no interface guards the root type, requirements are alike. -/
theorem Assembly.mirrors_of_unguarded {ρ : Renaming} {own : Operation} {a a' : Assembly} {statements : List Statement}
    (setting : a.setting.Mirrors ρ own a'.setting) (survey : a.survey.Mirrors ρ a'.survey)
    (coherent : Survey.Coherent a.setting (Look.all statements) a.survey)
    (ledger : a.ledger =
      a.survey.ledger.consolidate a.setting.maxOrScopes a.setting.roots a.survey.types a.survey.concrete)
    (ledger' : a'.ledger =
      a'.survey.ledger.consolidate a.setting.maxOrScopes a'.setting.roots a'.survey.types a'.survey.concrete)
    (settled : ∀ name ∈ a.types.keys, ρ.Settles own name)
    (root : ∃ t ∈ definitions statements own.defaultTypeName, t.kind = .object)
    (unguarded : ¬ IsGuardedByInterface a.setting.maxOrScopes statements own.defaultTypeName) :
    a.Mirrors ρ own a' := by
  have rootKind := coherent.kind?_iff.mpr root
  -- The root type is no interface, and no interface with a requirement hands anything down to it.
  have stays : ∀ i ∈ coveringInterfaces a.setting.maxOrScopes a.types,
      ρ i = i ∧ ∀ name ∈ (a.survey.concrete.of i).toList, ρ name = name := by
    intro i covering
    rw [Assembly.coveringInterfaces_eq, List.mem_filter] at covering
    refine ⟨(settled i covering.1).resolve_left ?_, fun name concrete => ?_⟩
    · rintro rfl
      exact absurd ((Assembly.Valid.kind?_of_covers covering.2).symm.trans rootKind) (by decide)
    · obtain ⟨known, guarded⟩ := isGuardedByInterface_of_concrete coherent covering.2 concrete
      refine (settled name (Assembly.mem_keys_of_kind? known)).resolve_left ?_
      rintro rfl
      exact unguarded guarded
  refine ⟨setting, survey, ?_, settled, Assembly.mem_keys_of_kind? rootKind⟩
  rw [ledger, ledger', survey.types, survey.concrete]
  exact survey.ledger.consolidate a.setting.maxOrScopes setting.roots a.survey.concrete settled stays

/-! ## Results -/

theorem mem_typeNames_of_registered {setting : Setting} {statements : List Statement} {s : Survey}
    (coherent : Survey.Coherent setting (Look.all statements) s) {name : String} (registered : name ∈ s.types.keys) :
    ∃ x ∈ statements, name ∈ x.typeNames := by
  obtain ⟨entry, found⟩ := Table.exists_get?_of_mem_keys registered
  obtain ⟨t, defines, -⟩ := coherent.kind?_iff.mp (congrArg (Option.map TypeEntry.kind) found)
  obtain ⟨⟨isExtension, looked⟩, rfl⟩ := mem_definitions.mp defines
  obtain ⟨x, member, given⟩ := List.mem_filterMap.mp (Look.mem_all_type.mp ⟨isExtension, looked⟩).1
  exact ⟨x, member, mentioned_of_type? given⟩

/-- Where a type is concrete for an object or interface, it is registered. -/
theorem registered_of_concrete {a : Assembly} {statements : List Statement}
    (coherent : Survey.Coherent a.setting (Look.all statements) a.survey) {e : String × TypeEntry × Composite}
    (composite : e ∈ a.ownComposites) {name : String} (concrete : name ∈ (a.survey.concrete.of e.1).toList) :
    name ∈ a.types.keys := by
  rcases (coherent.concrete e.1 name).mp concrete with ⟨union, -⟩ | implemented
  · obtain ⟨⟨typeName, entry⟩, listed, made⟩ := List.mem_filterMap.mp composite
    obtain ⟨c, found, rfl⟩ := Option.map_eq_some_iff.mp made
    have registered := Table.mem_toList.mp (List.mem_filter.mp listed).1
    obtain ⟨entry', found', kind⟩ := Option.map_eq_some_iff.mp union
    obtain rfl : entry = entry' := Option.some.inj (registered.symm.trans found')
    obtain ⟨_, _, _, _, shape⟩ := entry
    cases shape with
    | union => exact absurd found (by simp [TypeEntry.composite?, Shape.composite?])
    | enum | inputObject | interface | object | scalar => exact absurd kind (by simp [TypeEntry.kind, Shape.kind])
  · exact Assembly.mem_keys_of_kind? (coherent.mem_implemented_iff.mp implemented).1

/-- A subgraph is handed out where there are no errors, and no warnings if these count as errors. -/
theorem result?_normalize (options : NormalizationOptions) (statements : List Statement) :
    (normalize options statements).result? =
      if (Assembly.of options.subgraph options.maxOrScopes statements).errors = [] ∧
          (options.warningsAreFatal = true →
            (Assembly.of options.subgraph options.maxOrScopes statements).warnings = []) then
        some (Assembly.of options.subgraph options.maxOrScopes statements).result
      else none := by
  unfold normalize
  dsimp only
  cases options.warningsAreFatal with
  | false => simp [Diagnostics.anyFatal]
  | true =>
    by_cases clean : (Assembly.of options.subgraph options.maxOrScopes statements).errors = [] <;>
      simp [Diagnostics.anyFatal, Diagnostics.promoteWarnings, clean]

theorem Assembly.quiet_of_errors {a : Assembly} (clean : a.errors = []) :
    a.survey.errors = [] ∧ ∀ e ∈ a.ownTypes, a.typeErrors e.1 e.2 = [] := by
  simp only [errors, List.append_eq_nil_iff, List.flatMap_eq_nil_iff] at clean
  obtain ⟨⟨⟨⟨⟨⟨⟨⟨⟨survey, -⟩, types⟩, -⟩, -⟩, -⟩, -⟩, -⟩, -⟩, -⟩ := clean
  exact ⟨survey, types⟩

namespace FreshRootName

variable {own : Operation} {newName : String} {first rest : List Statement}
  (h : FreshRootName own newName (first ++ rest)) {subgraph : String} {maxOrScopes : Nat}

include h

theorem assembly_mirrors (unshared : IsUnshared own (first ++ rest))
    (unguarded : ¬ IsGuardedByInterface maxOrScopes (first ++ rest) own.defaultTypeName)
    (clean : (Assembly.of subgraph maxOrScopes (first ++ rest)).survey.errors = [] ∨
      (Assembly.of subgraph maxOrScopes (renameRoot own newName first rest)).survey.errors = []) :
    (Assembly.of subgraph maxOrScopes (first ++ rest)).Mirrors h.exchange own
      (Assembly.of subgraph maxOrScopes (renameRoot own newName first rest)) := by
  have survey := h.survey_mirrors unshared subgraph maxOrScopes fun t => h.kind_eq_object subgraph maxOrScopes clean
  have coherent := Survey.coherent_walk (clean.elim id survey.errors.mp)
  have limit := Assembly.maxOrScopes_of subgraph maxOrScopes (first ++ rest)
  refine Assembly.mirrors_of_unguarded (h.setting_mirrors unshared subgraph maxOrScopes).1 survey coherent ?_ ?_
    (fun name registered => ?_) h.defined (limit.symm ▸ unguarded)
  · rw [limit]
    rfl
  · rw [limit]
    rfl
  · obtain ⟨x, member, mentioned⟩ := mem_typeNames_of_registered coherent registered
    exact h.settles_mentioned member mentioned

theorem sameButRoot_of_mirrors
    (alike : (Assembly.of subgraph maxOrScopes (first ++ rest)).Mirrors h.exchange own
      (Assembly.of subgraph maxOrScopes (renameRoot own newName first rest)))
    (clean : (Assembly.of subgraph maxOrScopes (first ++ rest)).survey.errors = []) :
    (Assembly.of subgraph maxOrScopes (first ++ rest)).result.SameButRoot own newName
      (Assembly.of subgraph maxOrScopes (renameRoot own newName first rest)).result where
  configuration := by
    have coherent := Survey.coherent_walk clean
    refine alike.configuration fun e composite name concrete => ?_
    obtain ⟨x, member, mentioned⟩ :=
      mem_typeNames_of_registered coherent (registered_of_concrete coherent composite concrete)
    exact h.exchange_mentioned member mentioned
  authorization := alike.ledger.records
  overrides := alike.survey.overrides
  directives name := by
    have free : ∀ name ∈ [own.defaultTypeName, h.exchange own.defaultTypeName], name ∉ Vocabulary.keptNames := by
      simpa [h.exchange_default] using ⟨own.defaultTypeName_free, h.free⟩
    have same := alike.fieldDirectives? (.inl rfl) free name
    rwa [h.exchange_default] at same

/-- Where no interface guards the root type, the results are the same but for its name. -/
theorem sameButRoot_of_unguarded {options : NormalizationOptions} (unshared : IsUnshared own (first ++ rest))
    (unguarded : ¬ IsGuardedByInterface options.maxOrScopes (first ++ rest) own.defaultTypeName) :
    Option.Rel (NormalSubgraph.SameButRoot own newName) (normalize options (first ++ rest)).result?
      (normalize options (renameRoot own newName first rest)).result? := by
  rw [result?_normalize, result?_normalize]
  set a := Assembly.of options.subgraph options.maxOrScopes (first ++ rest) with given
  set a' := Assembly.of options.subgraph options.maxOrScopes (renameRoot own newName first rest) with given'
  by_cases clean : a.survey.errors = [] ∨ a'.survey.errors = []
  · have alike : a.Mirrors h.exchange own a' := h.assembly_mirrors unshared unguarded clean
    simp only [alike.errors, alike.warnings]
    split
    · exact .some (h.sameButRoot_of_mirrors alike (clean.elim id alike.survey.errors.mp))
    · exact .none
  -- Where types of one name differ in kind, assemblies need not be alike, but then both have errors.
  · obtain ⟨faulty, faulty'⟩ := not_or.mp clean
    rw [if_neg fun both => faulty (Assembly.quiet_of_errors both.1).1,
      if_neg fun both => faulty' (Assembly.quiet_of_errors both.1).1]
    exact .none

/-- The new name is not canonical. -/
theorem canonicalName_ne (unshared : IsUnshared own (first ++ rest)) {typeName : String}
    (other : newName ≠ typeName) :
    newName ≠ (Setting.of subgraph maxOrScopes (first ++ rest)).1.roots.canonicalName typeName := by
  rcases RootTypes.canonicalName_cases _ typeName with ⟨-, same⟩ | ⟨operation, declared, same⟩
  · exact fun named => other (named.trans same)
  · rw [same]
    intro gained
    have different : operation ≠ own := fun same => h.ne_default (same ▸ gained)
    rcases (h.setting_mirrors unshared subgraph maxOrScopes).1.roots.others operation different with stays | yields
    · have both := h.exchange.injective (stays.trans (gained.symm.trans h.exchange_default.symm))
      exact different (Operation.defaultTypeName_injective both)
    · exact yields.byTypeName typeName declared

/-- Nothing is recorded under a name that is not mentioned. -/
theorem notMem_records (unshared : IsUnshared own (first ++ rest))
    (clean : (Assembly.of subgraph maxOrScopes (first ++ rest)).errors = []) :
    newName ∉ (Assembly.of subgraph maxOrScopes (first ++ rest)).ledger.records.keys := by
  have v := Assembly.valid_of subgraph maxOrScopes (first ++ rest) clean
  intro recorded
  obtain ⟨typeName, registered, same⟩ := Assembly.names_of_record v.coherent v.ledger recorded
  have other : newName ≠ typeName := by
    rintro rfl
    obtain ⟨x, member, mentioned⟩ := mem_typeNames_of_registered v.coherent registered
    exact h.fresh x member mentioned
  exact same.elim (h.canonicalName_ne unshared other) other

/-- What an interface hands down to the root type is recorded under the new name. -/
theorem mem_records_of_guarded (unshared : IsUnshared own (first ++ rest))
    (clean : (Assembly.of subgraph maxOrScopes (first ++ rest)).errors = [])
    (clean' : (Assembly.of subgraph maxOrScopes (renameRoot own newName first rest)).errors = [])
    (guarded : IsGuardedByInterface maxOrScopes (first ++ rest) own.defaultTypeName) :
    newName ∈ (Assembly.of subgraph maxOrScopes (renameRoot own newName first rest)).ledger.records.keys := by
  have v := Assembly.valid_of subgraph maxOrScopes (first ++ rest) clean
  have v' := Assembly.valid_of subgraph maxOrScopes (renameRoot own newName first rest) clean'
  have limit := Assembly.maxOrScopes_of subgraph maxOrScopes (first ++ rest)
  have limit' := Assembly.maxOrScopes_of subgraph maxOrScopes (renameRoot own newName first rest)
  obtain ⟨quietSurvey, quietTypes⟩ := Assembly.quiet_of_errors clean
  have survey := h.survey_mirrors unshared subgraph maxOrScopes fun t =>
    h.kind_eq_object subgraph maxOrScopes (.inl quietSurvey)
  have interfaces : ∀ i ∈ _, _ := fun i => Assembly.kind?_of_implemented quietTypes
    (Assembly.isSupportType_of_free _ own.defaultTypeName_free)
  obtain ⟨i, covers, concrete⟩ := exists_covers_of_guarded v.coherent (v.coherent.kind?_iff.mpr h.defined) interfaces
    (limit.symm ▸ guarded)
  have interface := Assembly.Valid.kind?_of_covers covers
  -- Under the renaming the interface still covers, and hands down to the root type under its new name.
  have covering : h.exchange i ∈ coveringInterfaces maxOrScopes
      (Assembly.of subgraph maxOrScopes (renameRoot own newName first rest)).survey.types := by
    rw [survey.types, coveringInterfaces_rename]
    refine List.mem_map_of_mem ?_
    have listed := List.mem_filter.mpr ⟨Assembly.mem_keys_of_kind? interface, covers⟩
    rwa [← Assembly.coveringInterfaces_eq, limit] at listed
  have interface' : (Assembly.of subgraph maxOrScopes (renameRoot own newName first rest)).types.kind?
      (h.exchange i) = some .interface := by
    rw [Assembly.types, survey.types, Registry.kind?_rename]
    exact interface
  have implements : newName ∈ ((Assembly.of subgraph maxOrScopes
      (renameRoot own newName first rest)).survey.concrete.of (h.exchange i)).toList := by
    rw [survey.concrete, ConcreteTypes.of_rename]
    exact List.mem_map.mpr ⟨own.defaultTypeName, concrete, h.exchange_default⟩
  rw [v'.ledger, limit']
  exact Ledger.mem_records_consolidate maxOrScopes _ _ _ _ covering
    (v'.canonicalName_of_not_object interface' (by decide)) implements

end FreshRootName

/-- What a router and the requirements know of a subgraph does not depend on what its root type is called, unless an
interface guards it. -/
theorem normalize_renameRoot (options : NormalizationOptions) {own : Operation} {newName : String}
    {first rest : List Statement} (named : FreshRootName own newName (first ++ rest))
    (unshared : IsUnshared own (first ++ rest)) :
    Option.Rel (NormalSubgraph.SameButRoot own newName) (normalize options (first ++ rest)).result?
        (normalize options (renameRoot own newName first rest)).result? ↔
      ((normalize options (first ++ rest)).result? = none ∧
          (normalize options (renameRoot own newName first rest)).result? = none) ∨
        ¬ IsGuardedByInterface options.maxOrScopes (first ++ rest) own.defaultTypeName := by
  constructor
  · intro same
    refine or_iff_not_imp_right.mpr fun guarded => ?_
    replace guarded := not_not.mp guarded
    generalize valid : (normalize options (first ++ rest)).result? = r at same
    generalize valid' : (normalize options (renameRoot own newName first rest)).result? = r' at same
    cases same with
    | none => exact ⟨rfl, rfl⟩
    | @some n n' same =>
      obtain ⟨clean, rfl⟩ := result_of_normalize valid
      obtain ⟨clean', rfl⟩ := result_of_normalize valid'
      -- The root type has a record under its new name, which nothing has before it is renamed.
      have recorded := named.mem_records_of_guarded unshared clean clean' guarded
      have records : (Assembly.of _ _ (renameRoot own newName first rest)).ledger.records =
        (Assembly.of _ _ (first ++ rest)).ledger.records := same.authorization
      exact absurd (records ▸ recorded) (named.notMem_records unshared clean)
  · rintro (⟨none, none'⟩ | unguarded)
    · rw [none, none']
      exact .none
    · exact named.sameButRoot_of_unguarded unshared unguarded

/-- A query with a name and the interface that it implements, each with some directives. -/
def namedQuery (onInterface onQuery : List Directive) : List Statement :=
  let name : FieldDefinition := ⟨"name", none, [], .named "String" false, []⟩
  [.define (.type ⟨"Named", none, onInterface, .interface [] [name]⟩),
    .define (.type ⟨"Query", none, onQuery, .object ["Named"] [name]⟩)]

theorem freshRootName_namedQuery (onInterface onQuery : List Directive) :
    FreshRootName .query "Root" (namedQuery onInterface onQuery) where
  defined := ⟨_, List.mem_cons_self, rfl⟩
  default := by simp [namedQuery, Overview.rootsIn]
  plain := by
    simp only [namedQuery, List.forall_mem_cons, Statement.typeNames, TypeDefinition.typeNames, TypeBody.typeNames]
    decide
  fresh := by
    simp only [namedQuery, List.forall_mem_cons, Statement.typeNames, TypeDefinition.typeNames, TypeBody.typeNames]
    decide
  undotted := by decide
  free := by decide
  undeclared := by simp [namedQuery, Overview.rootsIn]

theorem isUnshared_namedQuery (onInterface onQuery : List Directive) :
    IsUnshared .query (namedQuery onInterface onQuery) := by
  simp [IsUnshared, namedQuery, Overview.rootsIn]

/-- A query with a requirement of its own, which its interface does not have, has it under another name as well. -/
theorem sameButRoot_namedQuery : ∃ n n',
    (normalize .default (namedQuery [] [⟨Vocabulary.authenticated, []⟩])).result? = some n ∧
      (normalize .default (renameRoot .query "Root" [] (namedQuery [] [⟨Vocabulary.authenticated, []⟩]))).result? =
        some n' ∧
      n.SameButRoot .query "Root" n' ∧ (n'.authorization.fieldAt "Query" "name").authenticated = true := by
  have unguarded : ¬ IsGuardedByInterface NormalizationOptions.default.maxOrScopes
      (namedQuery [] [⟨Vocabulary.authenticated, []⟩]) "Query" := by
    unfold IsGuardedByInterface
    decide +kernel
  have same := (@normalize_renameRoot .default .query "Root" [] (namedQuery [] [⟨Vocabulary.authenticated, []⟩])
    (freshRootName_namedQuery ..) (isUnshared_namedQuery _ _)).mpr (.inr unguarded)
  have asks : ((normalize .default (renameRoot .query "Root" []
      (namedQuery [] [⟨Vocabulary.authenticated, []⟩]))).result?.any fun n' =>
        (n'.authorization.fieldAt "Query" "name").authenticated) = true := by
    decide +kernel
  obtain ⟨n', valid', asked⟩ := (Option.any_eq_true ..).mp asks
  rw [valid', List.nil_append] at same
  generalize valid : (normalize .default (namedQuery [] [⟨Vocabulary.authenticated, []⟩])).result? = r at same
  cases same with
  | @some n _ same => exact ⟨n, n', rfl, valid', same, asked⟩

/-- Under its default name the query takes over what its interface requires, and under another name it does not. -/
theorem namedQuery_opened : ∃ n n',
    FreshRootName .query "Root" (namedQuery [⟨Vocabulary.authenticated, []⟩] []) ∧
      (normalize .default (namedQuery [⟨Vocabulary.authenticated, []⟩] [])).result? = some n ∧
      (normalize .default (renameRoot .query "Root" [] (namedQuery [⟨Vocabulary.authenticated, []⟩] []))).result? =
        some n' ∧
      (n.authorization.fieldAt "Query" "name").authenticated = true ∧
      (n'.authorization.fieldAt "Query" "name").authenticated = false ∧
      (n.document.fieldDirectives? "Query" "name").map (·.map Directive.name) = some [Vocabulary.authenticated] ∧
      (n'.document.fieldDirectives? "Root" "name").map (·.map Directive.name) = some [] := by
  have kept : ((normalize .default (namedQuery [⟨Vocabulary.authenticated, []⟩] [])).result?.any fun n =>
      (n.authorization.fieldAt "Query" "name").authenticated &&
        (n.document.fieldDirectives? "Query" "name").map (·.map Directive.name) =
          some [Vocabulary.authenticated]) = true := by
    decide +kernel
  have opened : ((normalize .default (renameRoot .query "Root" []
      (namedQuery [⟨Vocabulary.authenticated, []⟩] []))).result?.any fun n' =>
        !(n'.authorization.fieldAt "Query" "name").authenticated &&
          (n'.document.fieldDirectives? "Root" "name").map (·.map Directive.name) = some []) = true := by
    decide +kernel
  simp only [Option.any_eq_true, Bool.and_eq_true, Bool.not_eq_true', decide_eq_true_eq] at kept opened
  obtain ⟨n, valid, asked, directives⟩ := kept
  obtain ⟨n', valid', unasked, none⟩ := opened
  exact ⟨n, n', freshRootName_namedQuery .., valid, valid', asked, unasked, directives, none⟩

/-- The query that a schema makes the root type of mutations too. -/
def sharedQuery : List Statement := namedQuery [] [] ++ [.extendSchema ⟨[], [(.mutation, "Query")]⟩]

/-- A schema that declares the new name of a shared root type last makes it a query again. -/
example : (normalize .default sharedQuery).result?.map (·.configuration.keys) = some ["Named", "Mutation"] ∧
    (normalize .default (renameRoot .query "Root" sharedQuery [])).result?.map (·.configuration.keys) =
      some ["Named", "Query"] := by
  decide +kernel

end Federation
