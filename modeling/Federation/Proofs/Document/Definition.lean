import Federation.Proofs.Event.Fidelity
import Federation.Proofs.Normalization.Setting

/-!
# What a document defines

A document defines each directive once: what a subgraph defines stands beside the catalogue. It defines each type once
as long as an event-driven subgraph that filters its subscriptions leaves the types of the filter's condition to the
document. The two other types that come with directives give way to nothing.
-/

namespace Federation

open Schema

namespace Schema

def Definition.type? : Definition → Option TypeDefinition
  | .type t => some t
  | .directive _ | .schema _ => none

def Definition.directive? : Definition → Option DirectiveDefinition
  | .directive d => some d
  | .schema _ | .type _ => none

namespace Document

def types (document : Document) : List TypeDefinition := document.filterMap Definition.type?

def directives (document : Document) : List DirectiveDefinition := document.filterMap Definition.directive?

end Document

end Schema

namespace Catalogue

theorem nodup_all : (all.map DirectiveDefinition.name).Nodup := by decide

theorem name_mem_of_directive? {name : String} (none : directive? name = none) :
    name ∉ all.map DirectiveDefinition.name := by
  intro member
  obtain ⟨d, listed, same⟩ := List.mem_map.mp member
  exact List.find?_eq_none.mp none d listed (decide_eq_true same)

end Catalogue

theorem ite_sublist {α : Type} (condition : Bool) (xs : List α) : (if condition then xs else []).Sublist xs := by
  cases condition with
  | true => exact List.Sublist.refl xs
  | false => exact List.nil_sublist xs

namespace Assembly

variable {a : Assembly}

/-! ## Directives -/

theorem directives_document :
    a.document.directives = a.cataloguedDirectives ++ a.setting.customDirectives.values := by
  simp [document, Document.directives, List.filterMap_append, List.filterMap_map, Function.comp_def,
    Definition.directive?]

theorem cataloguedDirectives_sublist : a.cataloguedDirectives.Sublist Catalogue.all :=
  (((List.Sublist.refl Catalogue.base).append (ite_sublist _ _)).append List.filter_sublist).append (ite_sublist _ _)

/-- What the subgraph defines goes by the names under which the setting has it. -/
theorem names_customDirectives (beside : Overview.IsBeside a.setting.customDirectives) :
    a.setting.customDirectives.values.map DirectiveDefinition.name = a.setting.customDirectives.keys := by
  unfold Table.values Table.keys
  rw [List.map_map]
  apply List.map_congr_left
  rintro ⟨name, d⟩ member
  exact (beside name d (Table.mem_toList.mp member)).1

theorem nodup_directives (beside : Overview.IsBeside a.setting.customDirectives) :
    (a.document.directives.map DirectiveDefinition.name).Nodup := by
  rw [directives_document, List.map_append, names_customDirectives beside]
  have catalogued := cataloguedDirectives_sublist (a := a).map DirectiveDefinition.name
  refine List.nodup_append.mpr ⟨catalogued.nodup Catalogue.nodup_all, a.setting.customDirectives.nodup_keys, ?_⟩
  -- A name of the catalogue is none of the subgraph's own.
  rintro name listed _ own rfl
  obtain ⟨d, found⟩ := Table.exists_get?_of_mem_keys own
  exact Catalogue.name_mem_of_directive? (beside name d found).2 (catalogued.subset listed)

/-! ## Types -/

theorem types_document :
    a.document.types = a.supportTypes ++ a.ownTypes.map fun e => a.typeDefinition e.1 e.2 := by
  simp [document, Document.types, List.filterMap_append, List.filterMap_map, Function.comp_def, Definition.type?]

theorem names_ownTypes :
    (a.ownTypes.map fun e => a.typeDefinition e.1 e.2).map TypeDefinition.name = a.ownTypes.map Prod.fst := by
  rw [List.map_map]
  rfl

theorem mem_ownTypes {name : String} {entry : TypeEntry} :
    (name, entry) ∈ a.ownTypes ↔ a.types.get? name = some entry ∧ a.isSupportType name = false := by
  simp [ownTypes, Table.mem_toList]

theorem supportTypes_sublist : a.supportTypes.Sublist ([Catalogue.scalar Vocabulary.fieldSetScalar] ++
    [Catalogue.scalar Vocabulary.scopeScalar] ++ Catalogue.filterTypes) :=
  ((List.Sublist.refl _).append (ite_sublist _ _)).append (ite_sublist _ _)

/-- The types that come with directives have names of their own. -/
theorem nodup_supportTypes : (a.supportTypes.map TypeDefinition.name).Nodup :=
  (supportTypes_sublist.map TypeDefinition.name).nodup (by decide)

/-- A type that comes with directives takes the place of what is registered under its name, or it belongs to the
condition of a filter. -/
theorem isSupportType_or_filter {t : TypeDefinition} (member : t ∈ a.supportTypes) :
    a.isSupportType t.name = true ∨ a.usesFilter = true ∧ t ∈ Catalogue.filterTypes := by
  unfold supportTypes at member
  rcases List.mem_append.mp member with scalars | filter
  · refine .inl ?_
    rcases List.mem_append.mp scalars with fieldSet | scope
    · obtain rfl := List.mem_singleton.mp fieldSet
      simp [isSupportType, Catalogue.scalar]
    · split at scope
      · next two =>
        obtain rfl := List.mem_singleton.mp scope
        simp [isSupportType, Catalogue.scalar, two]
      · exact absurd scope List.not_mem_nil
  · split at filter
    · next used => exact .inr ⟨used, filter⟩
    · exact absurd filter List.not_mem_nil

theorem isSupportType_of_filter {t : TypeDefinition} (listed : t ∈ Catalogue.filterTypes) :
    a.isSupportType t.name = false := by
  have others : ∀ t ∈ Catalogue.filterTypes, t.name ≠ Vocabulary.fieldSetScalar ∧ t.name ≠ Vocabulary.scopeScalar := by
    decide
  simp [isSupportType, others t listed]

theorem nodup_types_iff : (a.document.types.map TypeDefinition.name).Nodup ↔
    (a.usesFilter = true → ∀ t ∈ Catalogue.filterTypes, t.name ∉ a.types.keys) := by
  rw [types_document, List.map_append, names_ownTypes, List.nodup_append]
  constructor
  · rintro ⟨-, -, disjoint⟩ used t listed registered
    obtain ⟨entry, found⟩ := Table.exists_get?_of_mem_keys registered
    have own : t.name ∈ a.ownTypes.map Prod.fst :=
      List.mem_map_of_mem (mem_ownTypes.mpr ⟨found, isSupportType_of_filter listed⟩)
    have support : t ∈ a.supportTypes := List.mem_append_right _ (by rwa [if_pos used])
    exact disjoint t.name (List.mem_map_of_mem support) t.name own rfl
  · intro apart
    refine ⟨nodup_supportTypes, (List.filter_sublist.map Prod.fst).nodup a.types.nodup_keys, ?_⟩
    rintro name support _ own rfl
    obtain ⟨t, listed, rfl⟩ := List.mem_map.mp support
    obtain ⟨⟨_, entry⟩, registered, rfl⟩ := List.mem_map.mp own
    obtain ⟨found, outside⟩ := mem_ownTypes.mp registered
    rcases isSupportType_or_filter listed with inside | ⟨used, filter⟩
    · exact Bool.false_ne_true (outside.symm.trans inside)
    · exact apart used t filter (Table.mem_keys_of_get? found)

end Assembly

/-! ## Valid subgraphs -/

section Normal

variable {options : NormalizationOptions} {statements : List Statement} {n : NormalSubgraph}

/-- A valid subgraph defines each directive once. Its types are defined once each just where, if it is event-driven and
filters subscriptions, it has no type of its own with the name of one that the condition of the filter needs. -/
theorem definedOnce_iff (valid : (normalize options statements).result? = some n) :
    (n.document.directives.map DirectiveDefinition.name).Nodup ∧
      ((n.document.types.map TypeDefinition.name).Nodup ↔
        (n.isEventDriven = true →
          (∃ d ∈ statements.flatMap Overview.appliedIn, d.name = Vocabulary.subscriptionFilter) →
            ∀ t ∈ Catalogue.filterTypes, n.types.kind? t.name = none)) := by
  obtain ⟨-, rfl⟩ := result_of_normalize valid
  refine ⟨Assembly.nodup_directives Setting.isBeside_of, ?_⟩
  have applied : Vocabulary.subscriptionFilter ∈
      (Assembly.of options.subgraph options.maxOrScopes statements).setting.applied.toList ↔ _ := Setting.mem_applied_of
  generalize Assembly.of options.subgraph options.maxOrScopes statements = a at applied ⊢
  have used : a.usesFilter = true ↔ a.result.isEventDriven = true ∧
      ∃ d ∈ statements.flatMap Overview.appliedIn, d.name = Vocabulary.subscriptionFilter := by
    rw [Assembly.usesFilter, Bool.and_eq_true, OrderedSet.contains_iff, applied]
    rfl
  have unregistered : ∀ name, name ∉ a.types.keys ↔ a.result.types.kind? name = none := fun name => by
    rw [← Table.get?_eq_none_iff, Registry.kind?, Option.map_eq_none_iff]
    rfl
  change (a.document.types.map TypeDefinition.name).Nodup ↔ _
  rw [Assembly.nodup_types_iff, used, and_imp]
  simp only [unregistered]

end Normal

/-- A subscription to the events of a topic that clients may filter. -/
def filteredSubscription : TypeDefinition :=
  ⟨"Subscription", none, [], .object [] [⟨"s", none, [], .named "E" true,
    [⟨Vocabulary.kafkaSubscribe, [(Vocabulary.topics, .list [.string "t"])]⟩,
      ⟨Vocabulary.subscriptionFilter, [("condition", .object [])]⟩]⟩]⟩

/-- Where the subgraph leaves the types of the condition to the document, they are defined once. -/
theorem definedOnce_filtered : ∃ n, (normalize .default [.define (.type filteredSubscription),
      .define (.type (entityType []))]).result? = some n ∧
    (n.document.types.map TypeDefinition.name).Nodup ∧
    ∀ t ∈ Catalogue.filterTypes, t.name ∈ n.document.types.map TypeDefinition.name := by
  have checked : (normalize .default [.define (.type filteredSubscription),
      .define (.type (entityType []))]).result?.any (fun n =>
        Catalogue.filterTypes.all fun t => n.types.kind? t.name = none &&
          decide (t.name ∈ n.document.types.map TypeDefinition.name)) = true := by
    decide +kernel
  simp only [Option.any_eq_true, List.all_eq_true, Bool.and_eq_true, decide_eq_true_eq] at checked
  obtain ⟨n, valid, free⟩ := checked
  exact ⟨n, valid, (definedOnce_iff valid).2.mpr fun _ _ t listed => (free t listed).1,
    fun t listed => (free t listed).2⟩

/-- A scalar of its own with the name of one of these types is defined beside that type. -/
theorem not_definedOnce_filterValue : ∃ n, (normalize .default [.define (.type filteredSubscription),
      .define (.type (entityType [])),
      .define (.type (Catalogue.scalar Vocabulary.filterValue))]).result? = some n ∧
    (n.document.types.map TypeDefinition.name).count Vocabulary.filterValue = 2 ∧
    ¬ (n.document.types.map TypeDefinition.name).Nodup := by
  have twice : (normalize .default [.define (.type filteredSubscription), .define (.type (entityType [])),
      .define (.type (Catalogue.scalar Vocabulary.filterValue))]).result?.any (fun n =>
        (n.document.types.map TypeDefinition.name).count Vocabulary.filterValue = 2) = true := by
    decide +kernel
  simp only [Option.any_eq_true, decide_eq_true_eq] at twice
  obtain ⟨n, valid, two⟩ := twice
  refine ⟨n, valid, two, fun once => ?_⟩
  have most := List.nodup_iff_count_le_one.mp once Vocabulary.filterValue
  omega

end Federation
