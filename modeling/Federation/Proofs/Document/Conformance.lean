import Federation.Proofs.Authorization.Reading
import Federation.Proofs.Document.Definition
import Federation.Proofs.Survey.Orderly

/-!
# Directives of a document

Every directive that stands in a document is defined there, once, and keeps to its definition. Directives of three
origins meet on a host: those that the survey has kept there, which are in order, and those that are written for the
requirement of a field, an enum or a scalar, which nothing else on such a host has the names of.
-/

namespace Federation

open Schema

namespace Schema

/-! ## Hosts -/

def FieldDefinition.hosts (f : FieldDefinition) : List (Location × List Directive) :=
  (.fieldDefinition, f.directives) :: f.arguments.map fun v => (.argumentDefinition, v.directives)

def TypeDefinition.hosts (t : TypeDefinition) : List (Location × List Directive) :=
  (t.kind.location, t.directives) ::
    match t.body with
    | .enum values => values.map fun v => (.enumValue, v.directives)
    | .inputObject fields => fields.map fun v => (.inputFieldDefinition, v.directives)
    | .interface _ fields | .object _ fields => fields.flatMap FieldDefinition.hosts
    | .scalar | .union _ => []

def Definition.hosts : Definition → List (Location × List Directive)
  | .directive _ => []
  | .schema d => [(.schema, d.directives)]
  | .type t => t.hosts

namespace Document

/-- The places of a document where directives may stand, each with those that do. -/
def hosts (document : Document) : List (Location × List Directive) := document.flatMap Definition.hosts

/-- Whether each application on a host conforms to the one definition that the document has of its directive, and is
the only one of it there if the directive may not be repeated. -/
def Conforms (document : Document) (location : Location) (host : List Directive) : Prop :=
  ∀ d ∈ host, ∃ definition, document.directives.filter (·.name = d.name) = [definition] ∧
    d.Conforms location definition ∧ (definition.isRepeatable = false → host.countP (·.name = d.name) ≤ 1)

variable {document : Document} {location : Location}

theorem conforms_nil : document.Conforms location [] := nofun

theorem countP_name_eq_zero {host : List Directive} {name : String} (others : ∀ d ∈ host, d.name ≠ name) :
    host.countP (·.name = name) = 0 :=
  List.countP_eq_zero.mpr fun d member => by simpa using others d member

/-- Two groups of directives without a name in common do not disturb each other. -/
theorem Conforms.append {own added : List Directive} (first : document.Conforms location own)
    (second : document.Conforms location added) (apart : ∀ d ∈ own, ∀ e ∈ added, d.name ≠ e.name) :
    document.Conforms location (own ++ added) := by
  intro d member
  rcases List.mem_append.mp member with inside | inside
  · obtain ⟨definition, single, conforms, once⟩ := first d inside
    refine ⟨definition, single, conforms, fun unrepeatable => ?_⟩
    rw [List.countP_append, countP_name_eq_zero fun e listed => (apart d inside e listed).symm]
    exact once unrepeatable
  · obtain ⟨definition, single, conforms, once⟩ := second d inside
    refine ⟨definition, single, conforms, fun unrepeatable => ?_⟩
    rw [List.countP_append, countP_name_eq_zero fun e listed => apart e listed d inside, Nat.zero_add]
    exact once unrepeatable

end Document

end Schema

/-! ## Requirements -/

namespace Authorization

/-- What is written for a requirement are authorization directives, each at most once. -/
theorem Requirement.isAuthorization_of_mem_directives {r : Requirement} {d : Directive} (member : d ∈ r.directives) :
    d.isAuthorization = true := by
  unfold directives at member
  rcases List.mem_append.mp member with authenticated | listed
  · split at authenticated
    · rw [List.mem_singleton.mp authenticated]
      decide
    · exact absurd authenticated List.not_mem_nil
  · split at listed
    · exact absurd listed List.not_mem_nil
    · rw [List.mem_singleton.mp listed]
      rfl

theorem Requirement.countP_directives_le_one (r : Requirement) (name : String) :
    r.directives.countP (·.name = name) ≤ 1 := by
  have names : (r.directives.map Directive.name).Sublist [Vocabulary.authenticated, Vocabulary.requiresScopes] := by
    unfold directives
    cases r.authenticated <;> cases r.scopes.isEmpty <;> simp
  have distinct : (r.directives.map Directive.name).Nodup := names.nodup (by decide)
  have counted := List.nodup_iff_count_le_one.mp distinct name
  rwa [List.count, List.countP_map] at counted

namespace Ledger

variable (limit : Nat)

/-- Where no authorization directive stands nothing is declared. -/
theorem declareAll_of_plain {ds : List (Host × List Directive)} (l : Ledger)
    (plain : ∀ d ∈ ds, ∀ e ∈ d.2, e.isAuthorization = false) : l.declareAll limit ds = l := by
  refine List.foldlRecOn (motive := fun l' : Ledger => l' = l) ds _ rfl fun l' same d member => ?_
  have nothing : d.2.filter Directive.isAuthorization = [] :=
    List.filter_eq_nil_iff.mpr fun e inside => by simp [plain d member e inside]
  rw [same, ← declare_filter, nothing]
  rfl

/-- Without requirements of types and of leaf types there is nothing to inherit. -/
theorem consolidate_of_plain (roots : RootTypes) {types : Registry} (concrete : ConcreteTypes) {l : Ledger}
    (plain : ∀ e ∈ types.toList, typeLevel limit e.2.directives = .nothing) (noLeaf : l.leafTypes = .empty) :
    l.consolidate limit roots types concrete = { l with heirs := [] } := by
  have types' : types.toList.foldl (fun l e => l.inheritFromType limit roots e.1 e.2) l = l := by
    refine List.foldlRecOn (motive := fun l' : Ledger => l' = l) _ _ rfl fun l' same e member => ?_
    rw [same, inheritFromType, plain e member]
    split <;> rfl
  have covering : coveringInterfaces limit types = [] := by
    refine List.filterMap_eq_nil_iff.mpr fun e member => ?_
    simp [plain e member]
  have leaves : l.heirs.foldl (inheritFromLeaf limit) l = l := by
    refine List.foldlRecOn (motive := fun l' : Ledger => l' = l) _ _ rfl fun l' same heir _ => ?_
    rw [same, inheritFromLeaf, noLeaf]
    rfl
  unfold consolidate
  dsimp only
  rw [types', covering, List.foldl_nil, leaves]

end Ledger

end Authorization

/-! ## Assembled documents -/

namespace Catalogue

/-- The second version of the rules brings the directives that declare requirements. -/
theorem versionTwo_authenticated : ∃ definition ∈ versionTwo, definition.name = Vocabulary.authenticated ∧
    definition.arguments = [] ∧
      ∀ location, Intake.goesToLedger location = true → location ∈ definition.locations := by
  refine ⟨_, List.mem_of_find?_eq_some (p := fun d => d.name = Vocabulary.authenticated) rfl, rfl, rfl, ?_⟩
  intro location
  cases location <;> decide

theorem versionTwo_requiresScopes : ∃ definition ∈ versionTwo, definition.name = Vocabulary.requiresScopes ∧
    definition.arguments = [⟨Vocabulary.scopes, scopesType, none⟩] ∧
      ∀ location, Intake.goesToLedger location = true → location ∈ definition.locations := by
  refine ⟨_, List.mem_of_find?_eq_some (p := fun d => d.name = Vocabulary.requiresScopes) rfl, rfl, rfl, ?_⟩
  intro location
  cases location <;> decide

end Catalogue

/-- What is written for a requirement conforms to the catalogue wherever requirements are recorded. -/
theorem Authorization.Requirement.conforms_of_mem_directives {r : Requirement} {d : Directive}
    (member : d ∈ r.directives) {location : Location} (recorded : Intake.goesToLedger location = true) :
    ∃ definition ∈ Catalogue.versionTwo, definition.name = d.name ∧ d.Conforms location definition := by
  unfold directives at member
  rcases List.mem_append.mp member with authenticated | listed
  · split at authenticated
    · obtain rfl := List.mem_singleton.mp authenticated
      obtain ⟨definition, catalogued, name, arguments, placed⟩ := Catalogue.versionTwo_authenticated
      refine ⟨definition, catalogued, name, placed location recorded, List.nodup_nil, nofun, ?_⟩
      simp [arguments]
    · exact absurd authenticated List.not_mem_nil
  · split at listed
    · exact absurd listed List.not_mem_nil
    · obtain rfl := List.mem_singleton.mp listed
      obtain ⟨definition, catalogued, name, arguments, placed⟩ := Catalogue.versionTwo_requiresScopes
      refine ⟨definition, catalogued, name, placed location recorded, List.nodup_singleton _, ?_, ?_⟩
      · intro name value given
        obtain ⟨rfl, rfl⟩ := Prod.mk.inj (List.mem_singleton.mp given)
        refine ⟨⟨Vocabulary.scopes, scopesType, .none⟩, by simp [DirectiveDefinition.argument?, arguments], ?_⟩
        -- The alternatives are lists of strings.
        simp [admits_scopesType, Value.coercedItems, Value.string?]
      · intro argument declared _
        rw [arguments] at declared
        rw [List.mem_singleton.mp declared]
        exact List.mem_singleton_self _

theorem filter_eq_singleton {α : Type} {f : α → String} {xs : List α} (distinct : (xs.map f).Nodup) {x : α}
    (member : x ∈ xs) : xs.filter (fun y => f y = f x) = [x] := by
  induction xs with
  | nil => exact absurd member List.not_mem_nil
  | cons first rest ih =>
    obtain ⟨absent, distinct⟩ := List.nodup_cons.mp distinct
    rcases List.mem_cons.mp member with rfl | later
    · have others : rest.filter (fun y => f y = f x) = [] :=
        List.filter_eq_nil_iff.mpr fun y listed => by
          simpa using fun same => absent (List.mem_map.mpr ⟨y, listed, same⟩)
      rw [List.filter_cons_of_pos (by simp), others]
    · have other : f first ≠ f x := fun same => absent (same ▸ List.mem_map_of_mem later)
      rw [List.filter_cons_of_neg (by simpa using other)]
      exact ih distinct later

namespace Assembly

variable {a : Assembly}

/-- What the directives of a document rest on. -/
structure Grounded (a : Assembly) : Prop where
  beside : Overview.IsBeside a.setting.customDirectives
  orderly : a.survey.Orderly a.setting
  filters : a.survey.filters.toList ≠ [] → a.setting.isEventDriven = true
  /-- Under the first version of the rules nothing is required. -/
  unrequired : a.setting.isVersionTwo = false → a.ledger.records = .empty ∧ a.ledger.leafTypes = .empty

theorem mem_directives_of_versionTwo (two : a.setting.isVersionTwo = true) {definition : DirectiveDefinition}
    (listed : definition ∈ Catalogue.versionTwo) : definition ∈ a.document.directives := by
  rw [directives_document, cataloguedDirectives, if_pos two]
  simp [listed]

/-- What the setting knows of a directive that is applied stands in the document. -/
theorem mem_directives_of_directive? (beside : Overview.IsBeside a.setting.customDirectives) {name : String}
    {definition : DirectiveDefinition} (defined : a.setting.directive? name = some definition)
    (known : name ∈ a.setting.applied.toList)
    (filters : name = Vocabulary.subscriptionFilter → a.setting.isEventDriven = true) :
    definition ∈ a.document.directives ∧ definition.name = name := by
  unfold Setting.directive? at defined
  -- The catalogue goes before what the text defines.
  cases catalogued : Catalogue.directive? name with
  | none =>
    rw [catalogued, Option.none_or] at defined
    have own : definition ∈ a.setting.customDirectives.values :=
      List.mem_map.mpr ⟨(name, definition), Table.mem_toList.mpr defined, rfl⟩
    rw [directives_document]
    exact ⟨List.mem_append_right _ own, (beside name definition defined).1⟩
  | some found =>
    rw [catalogued, Option.some_or] at defined
    obtain rfl := Option.some.inj defined
    have here : found.name = name := by simpa using List.find?_some catalogued
    refine ⟨?_, here⟩
    -- Each part of the catalogue is printed under a condition of its own.
    rcases List.mem_append.mp (List.mem_of_find?_eq_some catalogued) with member | filter
    · rcases List.mem_append.mp member with member | event
      · rcases List.mem_append.mp member with base | two
        · rw [directives_document, cataloguedDirectives]
          simp [base]
        · have marks : ∀ d ∈ Catalogue.versionTwo, d.name ∈ Vocabulary.versionTwoMarkers := by decide
          exact mem_directives_of_versionTwo
            (Setting.isVersionTwo_of_mem_applied known (here ▸ marks found two)) two
      · have applied : found ∈ Catalogue.events.filter fun d => a.setting.applied.contains d.name :=
          List.mem_filter.mpr ⟨event, OrderedSet.contains_iff.mpr (here ▸ known)⟩
        rw [directives_document, cataloguedDirectives]
        simp only [List.mem_append]
        exact .inl (.inl (.inr applied))
    · obtain rfl := List.mem_singleton.mp filter
      have used : a.usesFilter = true := by
        rw [← here] at known
        rw [usesFilter, filters here.symm, Bool.true_and]
        exact OrderedSet.contains_iff.mpr known
      rw [directives_document, cataloguedDirectives, if_pos used]
      simp

namespace Grounded

variable (g : a.Grounded)

include g

/-- What a host has kept conforms to the document, with filters only on fields. -/
theorem conforms_flatten {location : Location} {applied : AppliedDirectives}
    (inOrder : applied.InOrder a.setting location)
    (filtered : location = .fieldDefinition → applied.contains Vocabulary.subscriptionFilter = true →
      a.setting.isEventDriven = true) : a.document.Conforms location applied.flatten := by
  intro d member
  obtain ⟨name, kept⟩ := AppliedDirectives.mem_flatten.mp member
  obtain rfl := inOrder.filed name d kept
  obtain ⟨definition, defined, placed, sound⟩ := inOrder.allowed d.name d kept
  have filters : d.name = Vocabulary.subscriptionFilter → a.setting.isEventDriven = true := by
    intro filter
    refine filtered ?_ (filter ▸ AppliedDirectives.contains_of_mem_named kept)
    -- The filter may stand on fields alone.
    rw [filter, show a.setting.directive? Vocabulary.subscriptionFilter = some Catalogue.subscriptionFilter from rfl]
      at defined
    rw [← Option.some.inj defined] at placed
    revert placed
    cases location <;> decide
  obtain ⟨inside, name⟩ := mem_directives_of_directive? g.beside defined (inOrder.known d.name d kept) filters
  refine ⟨definition, ?_, DirectiveConformance.conforms_iff.mpr ⟨placed, sound⟩, fun single => ?_⟩
  · rw [← name]
    exact filter_eq_singleton (nodup_directives g.beside) inside
  · rw [List.countP_eq_length_filter, inOrder.filter_flatten d.name]
    exact inOrder.once d.name definition defined single

theorem conforms_requirement {location : Location} (recorded : Intake.goesToLedger location = true)
    {r : Authorization.Requirement} (asked : a.setting.isVersionTwo = false → r = .none) :
    a.document.Conforms location r.directives := by
  cases two : a.setting.isVersionTwo with
  | false =>
    rw [asked two]
    exact Document.conforms_nil
  | true =>
    intro d member
    obtain ⟨definition, catalogued, name, conforms⟩ := r.conforms_of_mem_directives member recorded
    refine ⟨definition, ?_, conforms, fun _ => r.countP_directives_le_one d.name⟩
    rw [← name]
    exact filter_eq_singleton (nodup_directives g.beside) (mem_directives_of_versionTwo two catalogued)

/-- On a host whose requirement is recorded what is kept and what is written for the requirement go together. -/
theorem conforms_required {location : Location} {applied : AppliedDirectives}
    (inOrder : applied.InOrder a.setting location) (recorded : Intake.goesToLedger location = true)
    (filtered : location = .fieldDefinition → applied.contains Vocabulary.subscriptionFilter = true →
      a.setting.isEventDriven = true) {r : Authorization.Requirement}
    (asked : a.setting.isVersionTwo = false → r = .none) :
    a.document.Conforms location (applied.flatten ++ r.directives) := by
  apply (g.conforms_flatten inOrder filtered).append (g.conforms_requirement recorded asked)
  intro d kept e written same
  obtain ⟨name, kept⟩ := AppliedDirectives.mem_flatten.mp kept
  obtain rfl := inOrder.filed name d kept
  have nothing := inOrder.unrecorded recorded e (r.isAuthorization_of_mem_directives written)
  rw [← same] at nothing
  exact absurd (nothing ▸ kept) List.not_mem_nil

/-! ## Hosts of types -/

theorem conforms_field {f : Field} (orderly : f.Orderly a.setting a.survey) (name canonicalName : String) :
    ∀ host ∈ (fieldDefinition (a.ledger.records.of canonicalName) name f).hosts,
      a.document.Conforms host.1 host.2 := by
  intro host member
  rcases List.mem_cons.mp member with rfl | argument
  · apply g.conforms_required orderly.directives rfl fun _ has => g.filters (orderly.filtered has)
    intro one
    rw [(g.unrequired one).1]
    rfl
  · obtain ⟨v, listed, rfl⟩ := List.mem_map.mp argument
    obtain ⟨⟨argumentName, value⟩, given, rfl⟩ := List.mem_map.mp listed
    exact g.conforms_flatten (orderly.arguments argumentName value (Table.mem_toList.mp given)).directives nofun

/-- The directives of a type itself, with those that declare the requirement of an enum or a scalar. -/
theorem conforms_typeDefinition (name : String) {entry : TypeEntry} (orderly : entry.Orderly a.setting a.survey) :
    a.document.Conforms entry.kind.location (a.typeDefinition name entry).directives := by
  have noField : entry.kind.location ≠ .fieldDefinition := by cases entry.kind <;> decide
  have kept := g.conforms_flatten orderly.directives fun here => absurd here noField
  unfold typeDefinition
  dsimp only
  split
  · next leaf =>
    unfold leafDirectives
    split
    · next required =>
      -- What is shown here was taken from the directives when they were recorded.
      have recorded : Intake.goesToLedger entry.kind.location = true := by
        cases kind : entry.kind <;> first | rfl | (rw [kind] at leaf; exact absurd leaf Bool.false_ne_true)
      apply g.conforms_required orderly.directives recorded fun here => absurd here noField
      intro one
      rw [(g.unrequired one).1]
      rfl
    · rwa [List.append_nil]
  · exact kept

theorem conforms_type {name : String} {entry : TypeEntry} (orderly : entry.Orderly a.setting a.survey) :
    ∀ host ∈ (a.typeDefinition name entry).hosts, a.document.Conforms host.1 host.2 := by
  have itself := g.conforms_typeDefinition name orderly
  have inside := orderly.shape
  obtain ⟨description, directives, extension, hasBase, shape⟩ := entry
  intro host member
  rcases List.mem_cons.mp member with rfl | child
  · cases shape <;> exact itself
  cases shape with
  | enum values =>
    obtain ⟨v, listed, rfl⟩ := List.mem_map.mp child
    obtain ⟨⟨valueName, value⟩, given, rfl⟩ := List.mem_map.mp listed
    exact g.conforms_flatten (inside valueName value (Table.mem_toList.mp given)) nofun
  | inputObject fields =>
    obtain ⟨v, listed, rfl⟩ := List.mem_map.mp child
    obtain ⟨⟨fieldName, value⟩, given, rfl⟩ := List.mem_map.mp listed
    exact g.conforms_flatten (inside fieldName value (Table.mem_toList.mp given)).directives nofun
  | interface c | object c =>
    obtain ⟨f, listed, here⟩ := List.mem_flatMap.mp child
    obtain ⟨⟨fieldName, field⟩, given, rfl⟩ := List.mem_map.mp listed
    exact g.conforms_field (inside fieldName field (Table.mem_toList.mp given)) fieldName _ host here
  | scalar | union => exact absurd child List.not_mem_nil

omit g in
/-- On the types that come with directives nothing stands. -/
theorem conforms_support {t : TypeDefinition} (support : t ∈ a.supportTypes) :
    ∀ host ∈ t.hosts, a.document.Conforms host.1 host.2 := by
  have bare : ∀ t ∈ [Catalogue.scalar Vocabulary.fieldSetScalar] ++ [Catalogue.scalar Vocabulary.scopeScalar] ++
      Catalogue.filterTypes, ∀ host ∈ t.hosts, host.2.isEmpty = true := by
    decide
  intro host member
  rw [List.isEmpty_iff.mp (bare t (supportTypes_sublist.subset support) host member)]
  exact Document.conforms_nil

theorem conforms_document : ∀ host ∈ a.document.hosts, a.document.Conforms host.1 host.2 := by
  intro host member
  obtain ⟨definition, listed, here⟩ := List.mem_flatMap.mp member
  cases definition with
  | directive d => exact absurd here List.not_mem_nil
  | schema d =>
    obtain rfl := List.mem_singleton.mp here
    have written : a.schemaDefinition? = some d := by simpa [document] using listed
    unfold schemaDefinition? at written
    split at written
    · cases written
    · obtain rfl := Option.some.inj written
      exact g.conforms_flatten g.orderly.schema fun here => by cases here
  | type t =>
    have stands : t ∈ a.document.types := List.mem_filterMap.mpr ⟨.type t, listed, rfl⟩
    rw [types_document] at stands
    rcases List.mem_append.mp stands with support | own
    · exact conforms_support support host here
    · obtain ⟨⟨name, entry⟩, registered, rfl⟩ := List.mem_map.mp own
      exact g.conforms_type (g.orderly.types name entry (mem_ownTypes.mp registered).1) host here

end Grounded

end Assembly

/-! ## Valid subgraphs -/

namespace Assembly

variable {options : NormalizationOptions} {statements : List Statement}

/-- The declarations that a survey looks at are of directives in the text. -/
theorem mem_appliedIn_of_declaration {setting : Setting} {host : Authorization.Host × List Directive}
    (declared : host ∈ (Look.all statements).flatMap (Look.declarations setting)) {d : Directive}
    (member : d ∈ host.2) : d ∈ statements.flatMap Overview.appliedIn := by
  obtain ⟨l, looked, found⟩ := List.mem_flatMap.mp declared
  obtain ⟨x, listed, here⟩ := List.mem_flatMap.mp looked
  refine List.mem_flatMap.mpr ⟨x, listed, Look.applied_subset here ?_⟩
  cases l with
  | type isExtension t =>
    dsimp only [Look.declarations] at found
    split at found
    · obtain rfl := List.mem_singleton.mp found
      exact member
    · exact absurd found List.not_mem_nil
  | field isExtension t f =>
    dsimp only [Look.declarations] at found
    split at found
    · exact absurd found List.not_mem_nil
    · obtain rfl := List.mem_singleton.mp found
      exact List.mem_append_left _ member
  | schema | enumValue | inputValue => exact absurd found List.not_mem_nil

variable {a : Assembly}

theorem isEventDriven_of_filters (quiet : a.filterErrors = []) (some : a.survey.filters.toList ≠ []) :
    a.setting.isEventDriven = true := by
  obtain ⟨⟨path, isSubscription⟩, listed⟩ := List.exists_mem_of_ne_nil _ some
  have placed := List.filterMap_eq_nil_iff.mp quiet _ listed
  dsimp only at placed
  split at placed
  · next both => exact (Bool.and_eq_true_iff.mp both).1
  · exact absurd placed nofun

/-- Authorization directives mark the second version of the rules, so without it no requirement comes about. -/
theorem unrequired_of_versionOne (v : a.Valid statements) (orderly : a.survey.Orderly a.setting)
    (known : ∀ d ∈ statements.flatMap Overview.appliedIn, d.name ∈ a.setting.applied.toList)
    (one : a.setting.isVersionTwo = false) : a.ledger.records = .empty ∧ a.ledger.leafTypes = .empty := by
  have marks : ∀ name ∈ [Vocabulary.authenticated, Vocabulary.requiresScopes], name ∉ a.setting.applied.toList := by
    have markers : ∀ name ∈ [Vocabulary.authenticated, Vocabulary.requiresScopes],
        name ∈ Vocabulary.versionTwoMarkers := by
      decide
    intro name authorizes applied
    have two := Setting.isVersionTwo_of_mem_applied applied (markers name authorizes)
    exact Bool.false_ne_true (one.symm.trans two)
  -- Nothing is declared on fields and leaf types, and types keep nothing that would declare something.
  have declared : a.survey.ledger = { Authorization.Ledger.empty with heirs := a.survey.ledger.heirs } := by
    have plain : ∀ host ∈ (Look.all statements).flatMap (Look.declarations a.setting), ∀ d ∈ host.2,
        d.isAuthorization = false := fun host listed d member => Bool.eq_false_iff.mpr fun authorizes =>
      marks d.name (of_decide_eq_true authorizes) (known d (mem_appliedIn_of_declaration listed member))
    rw [← Authorization.Ledger.declareAll_of_plain a.setting.maxOrScopes .empty plain]
    exact v.coherent.declared
  have kept : ∀ e ∈ a.survey.types.toList,
      Authorization.typeLevel a.setting.maxOrScopes e.2.directives = .nothing := by
    rintro ⟨name, entry⟩ registered
    have inOrder := (orderly.types name entry (Table.mem_toList.mp registered)).directives
    have nothing : ∀ other ∈ [Vocabulary.authenticated, Vocabulary.requiresScopes],
        entry.directives.named other = [] := fun other authorizes =>
      List.eq_nil_iff_forall_not_mem.mpr fun d member => marks other authorizes (inOrder.known other d member)
    simp [Authorization.typeLevel, Authorization.Declared.of, nothing]
  have noLeaf : a.survey.ledger.leafTypes = .empty := by rw [declared]; rfl
  rw [v.ledger, Authorization.Ledger.consolidate_of_plain _ _ _ kept noLeaf, declared]
  exact ⟨rfl, rfl⟩

theorem grounded_of (clean : (Assembly.of options.subgraph options.maxOrScopes statements).errors = []) :
    (Assembly.of options.subgraph options.maxOrScopes statements).Grounded := by
  have v := valid_of options.subgraph options.maxOrScopes statements clean
  have known : ∀ d ∈ statements.flatMap Overview.appliedIn, d.name ∈
      (Assembly.of options.subgraph options.maxOrScopes statements).setting.applied.toList :=
    fun d member => Setting.mem_applied_of.mpr ⟨d, member, rfl⟩
  have orderly : (Assembly.of options.subgraph options.maxOrScopes statements).survey.Orderly
      (Assembly.of options.subgraph options.maxOrScopes statements).setting :=
    Survey.orderly_walk fun x listed d member => known d (List.mem_flatMap.mpr ⟨x, listed, member⟩)
  simp only [errors, List.append_eq_nil_iff] at clean
  obtain ⟨⟨-, filters⟩, -⟩ := clean
  exact ⟨Setting.isBeside_of, orderly, isEventDriven_of_filters filters, unrequired_of_versionOne v orderly known⟩

theorem Grounded.inOrder_of_field? {a : Assembly} (g : a.Grounded) {typeName name : String} {field : Field}
    (known : a.types.field? typeName name = some field) : field.directives.InOrder a.setting .fieldDefinition :=
  (g.orderly.field? known).directives

end Assembly

section Normal

variable {options : NormalizationOptions} {statements : List Statement} {n : NormalSubgraph}

/-- Each directive that stands in the document of a valid subgraph is defined there once, and the application keeps to
the definition: in its place, in its arguments, and in not being repeated. -/
theorem document_conforms (valid : (normalize options statements).result? = some n) :
    ∀ host ∈ n.document.hosts, n.document.Conforms host.1 host.2 := by
  obtain ⟨clean, rfl⟩ := result_of_normalize valid
  exact (Assembly.grounded_of clean).conforms_document

end Normal

/-- A subgraph that notes the owners of its types, and an enum that asks for a scope. -/
def ownedSubgraph : List Statement :=
  let owner (team : String) : Directive := ⟨"owner", [("team", .string team)]⟩
  let color (field : String) (directives : List Directive) : FieldDefinition :=
    ⟨field, none, [], .named "Color" false, directives⟩
  [.define (.directive ⟨"owner", none, [⟨"team", .named "String" true, none⟩], true, [.object, .enum]⟩),
    .define (.type ⟨"Query", none, [owner "a"], .object [] [color "shade" [⟨Vocabulary.authenticated, []⟩]]⟩),
    .extendType ⟨"Query", none, [owner "b"], .object [] [color "hue" []]⟩,
    .define (.type ⟨"Color", none,
      [⟨Vocabulary.requiresScopes, [(Vocabulary.scopes, .list [.list [.string "read"]])]⟩],
      .enum [⟨"RED", none, [⟨Vocabulary.deprecated, []⟩]⟩]⟩)]

/-- The directives of the subgraph, repeated over two sightings, meet those that inheritance has brought about. -/
theorem document_conforms_owned : ∃ n, (normalize .default ownedSubgraph).result? = some n ∧
    (n.document.hosts.filter (!·.2.isEmpty)).map (fun host => (host.1, host.2.map Directive.name)) =
      [(.object, ["owner", "owner"]),
        (.fieldDefinition, [Vocabulary.authenticated, Vocabulary.requiresScopes]),
        (.fieldDefinition, [Vocabulary.requiresScopes]),
        (.enum, [Vocabulary.requiresScopes]), (.enumValue, [Vocabulary.deprecated])] ∧
    ∀ host ∈ n.document.hosts, n.document.Conforms host.1 host.2 := by
  have written : (normalize .default ownedSubgraph).result?.any (fun n =>
      (n.document.hosts.filter (!·.2.isEmpty)).map (fun host => (host.1, host.2.map Directive.name)) =
        [(.object, ["owner", "owner"]),
          (.fieldDefinition, [Vocabulary.authenticated, Vocabulary.requiresScopes]),
          (.fieldDefinition, [Vocabulary.requiresScopes]),
          (.enum, [Vocabulary.requiresScopes]), (.enumValue, [Vocabulary.deprecated])]) = true := by
    decide +kernel
  simp only [Option.any_eq_true, decide_eq_true_eq] at written
  obtain ⟨n, valid, hosts⟩ := written
  exact ⟨n, valid, hosts, document_conforms valid⟩

end Federation
