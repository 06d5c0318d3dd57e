import Federation.Proofs.Event.Fidelity
import Federation.Proofs.FieldSet.Typing
import Federation.Proofs.Normalization.Setting
import Federation.Proofs.Survey.Key

/-!
# The shape of event-driven subgraphs

In a valid subgraph that applies an event directive, objects consist of keys that other subgraphs resolve, and root
fields are bound to a message broker by a directive of their operation and return what a broker can give. Two objects
are not looked at, whatever they are used for: those that have the names of the result of publishing and of the
configuration of a stream. So the shape is complete where the root types that have these names keep to it.
-/

namespace Federation

open Schema

namespace Event

/-- Types that have a meaning of their own in an event-driven subgraph. -/
def reservedTypes : List String := [Vocabulary.publishResult, Vocabulary.streamInput]

end Event

/-- Whether a field stands at the top of the field set of a key. -/
def Schema.Directive.SelectsAtTop (key : Directive) (name : String) : Prop :=
  ∃ fieldSet selections, key.keyFields? = some fieldSet ∧ Grammar.readFieldSet? fieldSet = some selections ∧
    name ∈ FieldSet.topLevelNames selections

/-- A type that consists of the fields of its keys, which can be resolved and belong to other subgraphs. -/
structure TypeEntry.ConsistsOfKeys (entry : TypeEntry) (c : Composite) : Prop where
  keyed : entry.directives.named Vocabulary.key ≠ []
  resolvable : ∀ key ∈ entry.directives.named Vocabulary.key, ∀ fieldSet, key.keyFields? = some fieldSet →
    key.isResolvableKey = true
  external : ∀ name field, c.fields.get? name = some field → field.isExternal = true
  selected : ∀ name ∈ c.fields.keys, ∃ key ∈ entry.directives.named Vocabulary.key, key.SelectsAtTop name

namespace NormalSubgraph

/-- Whether a type is an entity, or an abstract type with an entity among its concrete types. -/
def LeadsToEntity (n : NormalSubgraph) (typeName : String) : Prop :=
  n.types.isEntity typeName = true ∨
    (n.types.kind? typeName = some .union ∨ n.types.kind? typeName = some .interface) ∧
      ∃ name ∈ (n.concreteTypes.of typeName).toList, n.types.isEntity name = true

/-- A root field with directives of its operation that returns what a message broker can give. -/
structure BindsRootField (n : NormalSubgraph) (operation : Operation) (field : Field) : Prop where
  bound : ∃ name ∈ Vocabulary.eventDirectives, field.directives.contains name = true
  permitted : ∀ name ∈ Vocabulary.eventDirectives, field.directives.contains name = true →
    name ∈ Event.permitted operation
  publishes : operation = .mutation → field.type = .named Vocabulary.publishResult true
  responds : operation ≠ .mutation → field.type.isNonNull = true ∧ n.LeadsToEntity field.type.namedType

/-- Whether the fields of an object are bound as those of a root type, where it is one. -/
def BindsRootFields (n : NormalSubgraph) (typeName : String) : Prop :=
  ∀ entry c operation, n.types.get? typeName = some entry → entry.shape = .object c →
    n.roots.operation? typeName = some operation → ∀ name field, c.fields.get? name = some field →
      n.BindsRootField operation field

/-- The shape of an event-driven subgraph. -/
structure EventShaped (n : NormalSubgraph) (statements : List Statement) : Prop where
  objects : ∀ typeName entry c, typeName ∉ Event.reservedTypes → n.roots.isRootName typeName = false →
    n.types.get? typeName = some entry → entry.shape = .object c → entry.ConsistsOfKeys c
  rootFields : ∀ typeName, n.BindsRootFields typeName
  publishResult : ∀ entry, n.types.get? Vocabulary.publishResult = some entry → ∃ c field, entry.shape = .object c ∧
    c.fields.toList = [(Vocabulary.success, field)] ∧ field.arguments.toList = [] ∧
      field.type = .named "Boolean" true
  streamInput : (∃ d ∈ statements.flatMap Overview.appliedIn, d.name = Vocabulary.natsSubscribe) →
    ∃ entry values, n.types.get? Vocabulary.streamInput = some entry ∧ entry.shape = .inputObject values ∧
      values.size = 2 ∧ ∀ name ∈ Event.StreamConfiguration.fieldNames, ∃ value,
        values.get? name = some value ∧ value.type = .named "String" true

theorem EventShaped.bindsRootField {n : NormalSubgraph} {statements : List Statement} (shaped : n.EventShaped statements)
    {typeName name : String} {operation : Operation} {field : Field} (root : n.roots.operation? typeName = some operation)
    (object : n.types.kind? typeName = some .object) (known : n.types.field? typeName name = some field) :
    n.BindsRootField operation field := by
  obtain ⟨entry, c, registered, shape⟩ := Registry.object_of_kind? object
  refine shaped.rootFields typeName entry c operation registered shape root name field ?_
  simpa [Registry.field?, Registry.composite?, registered, TypeEntry.composite?, shape, Shape.composite?] using known

end NormalSubgraph

/-! ## Keys of valid subgraphs -/

/-- Among keys with field sets of their own a key is found by its field set. -/
theorem AppliedDirectives.HasDistinctKeys.find?_eq {applied : AppliedDirectives} (distinct : applied.HasDistinctKeys)
    {key : Directive} {fieldSet : String} (member : key ∈ applied.named Vocabulary.key)
    (written : key.keyFields? = some fieldSet) :
    (applied.named Vocabulary.key).find? (·.keyFields? = some fieldSet) = some key := by
  unfold HasDistinctKeys at distinct
  generalize applied.named Vocabulary.key = keys at distinct member ⊢
  induction keys with
  | nil => exact absurd member List.not_mem_nil
  | cons first rest ih =>
    obtain ⟨others, later⟩ := List.pairwise_cons.mp distinct
    rcases List.mem_cons.mp member with rfl | inside
    · simp [written]
    · have other : first.keyFields? ≠ some fieldSet := fun same => others key inside fieldSet same written
      rw [List.find?_cons_of_neg (by simpa using other)]
      exact ih later inside

namespace FieldSet

theorem ne_nil_of_check {types : Registry} {use : FieldSetUse} {parent fieldSet : String}
    {faults : List FieldSetFault} (checked : check types use parent fieldSet = .error faults) : faults ≠ [] := by
  unfold check at checked
  split at checked
  · exact Except.error.inj checked ▸ List.cons_ne_nil _ _
  · split at checked
    · exact absurd checked nofun
    · next found some =>
      obtain rfl := Except.error.inj checked
      exact some

/-- Where no error is made of the keys of a type, each of them has selections that stand on the type. -/
theorem outcome_of_keyErrors {types : Registry} {typeName : String} {sets : KeySets}
    (quiet : keyErrors typeName (keysOf types typeName sets) = []) {k : DeclaredKey}
    (member : k ∈ keysOf types typeName sets) :
    ∃ selections, k.selections? = some selections ∧ Grammar.readFieldSet? k.fieldSet = some selections := by
  obtain ⟨blank, faulty⟩ := List.append_eq_nil_iff.mp quiet
  have written : k.isBlank = false := by
    by_contra found
    have inside : k ∈ (keysOf types typeName sets).filter DeclaredKey.isBlank :=
      List.mem_filter.mpr ⟨member, by simpa using found⟩
    split at blank
    · next none =>
      rw [List.isEmpty_iff, List.map_eq_nil_iff] at none
      exact absurd (none ▸ inside) List.not_mem_nil
    · exact absurd blank (List.cons_ne_nil _ _)
  have sound : k.faults = [] := by
    split at faulty
    · next none =>
      rw [List.isEmpty_iff, List.flatMap_eq_nil_iff] at none
      exact List.map_eq_nil_iff.mp (none k member)
    · exact absurd faulty (List.cons_ne_nil _ _)
  obtain ⟨⟨fieldSet, isResolvable⟩, -, rfl⟩ := List.mem_map.mp member
  simp only [DeclaredKey.faults, written, Bool.false_eq_true, if_false] at sound
  simp only [DeclaredKey.selections?, written, Bool.false_eq_true, if_false]
  cases checked : check types .key typeName fieldSet with
  | ok selections => exact ⟨selections, rfl, (check_eq_ok_iff.mp checked).1⟩
  | error faults =>
    simp only [checked] at sound
    exact absurd sound (ne_nil_of_check checked)

end FieldSet

theorem Event.Subject.permits_of_rootFieldFault? {operation : Operation} {typeName name : String} {field : Field}
    (quiet : rootFieldFault? (operation, typeName, name, field) = none) :
    (∃ e ∈ Vocabulary.eventDirectives, field.directives.contains e = true) ∧
      ∀ e ∈ Vocabulary.eventDirectives, field.directives.contains e = true → e ∈ permitted operation := by
  unfold rootFieldFault? at quiet
  dsimp only at quiet
  split at quiet
  · cases quiet
  · next bound =>
    split at quiet
    · next unrefused =>
      rw [Bool.not_eq_true, List.isEmpty_eq_false_iff_exists_mem] at bound
      obtain ⟨e, member⟩ := bound
      refine ⟨⟨e, List.mem_filter.mp member⟩, fun e event carried => ?_⟩
      rw [List.isEmpty_iff, List.filter_eq_nil_iff] at unrefused
      simpa using unrefused e (List.mem_filter.mpr ⟨event, carried⟩)
    · cases quiet

namespace Assembly

variable {a : Assembly} {past : List Look}

theorem readsKeys_of_quiet (quiet : a.fieldSetErrors = []) {typeName : String} {sets : KeySets}
    (found : a.survey.keySets.get? typeName = some sets) {k : FieldSet.DeclaredKey}
    (member : k ∈ FieldSet.keysOf a.types typeName sets) :
    ∃ selections, k.selections? = some selections ∧ Grammar.readFieldSet? k.fieldSet = some selections := by
  refine FieldSet.outcome_of_keyErrors ?_ member
  have keys := (List.append_eq_nil_iff.mp quiet).1
  exact List.flatMap_eq_nil_iff.mp keys _ (List.mem_map.mpr ⟨(typeName, sets), Table.mem_toList.mpr found, rfl⟩)

/-- The names among the fields of the keys of a type stand at the top of field sets of its keys. -/
theorem selectsAtTop_of_mem_keyFieldNames (quiet : a.fieldSetErrors = []) (recorded : a.survey.RecordsKeys)
    {typeName : String} {names : NameSet} (found : a.keyFieldNames.get? typeName = some names) :
    (a.types.applied typeName).named Vocabulary.key ≠ [] ∧
      ∀ name ∈ names.toList, ∃ key ∈ (a.types.applied typeName).named Vocabulary.key, key.SelectsAtTop name := by
  unfold keyFieldNames at found
  rw [Table.get?_filterMap, Option.bind_eq_some_iff] at found
  obtain ⟨sets, kept, made⟩ := found
  dsimp only at made
  split at made
  · exact absurd made nofun
  next usable =>
  obtain rfl := Option.some.inj made
  -- Each field set that is recorded is that of a key which the type keeps.
  have given : ∀ k ∈ FieldSet.keysOf a.types typeName sets,
      ∃ key ∈ (a.types.applied typeName).named Vocabulary.key, key.keyFields? = some k.fieldSet := by
    intro k member
    obtain ⟨⟨fieldSet, isResolvable⟩, listed, rfl⟩ := List.mem_map.mp member
    have known := Table.mem_toList.mp listed
    rw [recorded.eq_ofKeys kept, KeySets.get?_ofKeys, Option.map_eq_some_iff] at known
    obtain ⟨key, first, -⟩ := known
    exact ⟨key, List.mem_of_find?_eq_some first, by simpa using List.find?_some first⟩
  constructor
  · obtain ⟨selections, valid⟩ := List.isEmpty_eq_false_iff_exists_mem.mp (Bool.eq_false_iff.mpr usable)
    obtain ⟨k, listed, -⟩ := List.mem_filterMap.mp valid
    obtain ⟨key, own, -⟩ := given k listed
    exact List.ne_nil_of_mem own
  · intro name member
    obtain ⟨selections, valid, inside⟩ := List.mem_flatMap.mp (OrderedSet.mem_ofList.mp member)
    obtain ⟨k, listed, selects⟩ := List.mem_filterMap.mp valid
    obtain ⟨key, own, written⟩ := given k listed
    obtain ⟨selections', same, read⟩ := readsKeys_of_quiet quiet kept listed
    obtain rfl := Option.some.inj (selects.symm.trans same)
    exact ⟨key, own, k.fieldSet, selections, written, read, inside⟩

/-- What is read off the parts of an event-driven subgraph about which nothing is reported. -/
structure EventQuiet (a : Assembly) : Prop where
  fieldSets : a.fieldSetErrors = []
  keys : a.survey.RecordsKeys
  faults : a.eventSubject.faults = []

namespace EventQuiet

variable (q : a.EventQuiet)

include q

/-- Objects that are no root types and have no meaning of their own consist of keys. -/
theorem consistsOfKeys {typeName : String} {entry : TypeEntry} {c : Composite}
    (free : typeName ∉ Event.reservedTypes) (noRoot : a.setting.roots.isRootName typeName = false)
    (registered : a.types.get? typeName = some entry) (object : entry.shape = .object c) : entry.ConsistsOfKeys c := by
  have quiet := q.faults
  simp only [Event.Subject.faults, List.append_eq_nil_iff] at quiet
  obtain ⟨⟨⟨⟨-, unresolvable⟩, own⟩, outside⟩, unkeyed⟩ := quiet
  -- The lists of faults run over entity objects that have keys, and this is one of them.
  have member : (typeName, c) ∈ a.eventSubject.entityObjects := by
    refine List.mem_filterMap.mpr ⟨(typeName, entry), Table.mem_toList.mpr registered, ?_⟩
    dsimp only
    rw [if_neg (show typeName ∉ [Vocabulary.publishResult, Vocabulary.streamInput] from free), object]
    exact if_neg (Bool.eq_false_iff.mp noRoot)
  obtain ⟨names, found⟩ : ∃ names, a.keyFieldNames.get? typeName = some names := by
    refine Table.exists_get?_of_mem_keys (Table.contains_iff.mp ?_)
    have all := List.filter_eq_nil_iff.mp (ite_isEmpty_eq_nil_iff.mp unkeyed) typeName
      (List.mem_map.mpr ⟨_, member, rfl⟩)
    simpa [eventSubject] using all
  have keyed : (typeName, c, names) ∈ a.eventSubject.keyedObjects :=
    List.mem_filterMap.mpr ⟨(typeName, c), member, by simp [eventSubject, found]⟩
  have directives : a.types.applied typeName = entry.directives := by simp [Registry.applied, registered]
  obtain ⟨nonempty, selected⟩ := selectsAtTop_of_mem_keyFieldNames q.fieldSets q.keys found
  rw [directives] at nonempty selected
  have inside : ∀ name ∈ c.fields.keys, name ∈ names.toList := by
    intro name present
    have all := List.flatMap_eq_nil_iff.mp (ite_isEmpty_eq_nil_iff.mp outside) _ keyed
    simpa [OrderedSet.contains_iff] using List.filter_eq_nil_iff.mp (List.map_eq_nil_iff.mp all) name present
  refine ⟨nonempty, fun key held fieldSet written => ?_, fun name field known => ?_, fun name present =>
    selected name (inside name present)⟩
  · have recorded : (a.survey.keySets.getD typeName .empty).get? fieldSet = some key.isResolvableKey := by
      obtain ⟨sets, kept⟩ : ∃ sets, a.survey.keySets.get? typeName = some sets :=
        Table.exists_get?_of_mem_keys ((Table.keys_filterMap_sublist _ _).subset (Table.mem_keys_of_get? found))
      have distinct := q.keys.distinct typeName
      have eq := q.keys.eq_ofKeys kept
      change a.survey.types.applied typeName = _ at directives
      rw [directives] at distinct eq
      rw [Table.getD, kept, Option.getD_some, eq, KeySets.get?_ofKeys, distinct.find?_eq held written]
      rfl
    have all := List.flatMap_eq_nil_iff.mp (ite_isEmpty_eq_nil_iff.mp unresolvable) _ keyed
    have each := List.filter_eq_nil_iff.mp (List.map_eq_nil_iff.mp all) _ (Table.mem_toList.mpr recorded)
    simpa using each
  · have all := List.flatMap_eq_nil_iff.mp (ite_isEmpty_eq_nil_iff.mp own) _ keyed
    have each := List.filter_eq_nil_iff.mp (List.map_eq_nil_iff.mp all) _ (Table.mem_toList.mpr known)
    simpa [OrderedSet.contains_iff.mpr (inside name (Table.mem_keys_of_get? known))] using each

/-- What is not found on the fields of root types that have no meaning of their own. -/
theorem rootFields {typeName : String} {entry : TypeEntry} {c : Composite} {operation : Operation}
    (free : typeName ∉ Event.reservedTypes) (registered : a.types.get? typeName = some entry)
    (object : entry.shape = .object c) (root : a.setting.roots.operation? typeName = some operation) {name : String}
    {field : Field} (known : c.fields.get? name = some field) :
    Event.Subject.rootFieldFault? (operation, typeName, name, field) = none ∧
      Event.Subject.mutationResponseFault? (operation, typeName, name, field) = none ∧
      a.eventSubject.rootResponseFault? (operation, typeName, name, field) = none := by
  have quiet := q.faults
  simp only [Event.Subject.faults, List.append_eq_nil_iff] at quiet
  obtain ⟨⟨⟨⟨⟨⟨⟨-, bound⟩, published⟩, answered⟩, -⟩, -⟩, -⟩, -⟩ := quiet
  -- The three checks run over the same list.
  have member : (operation, typeName, name, field) ∈ a.eventSubject.rootFields := by
    refine List.mem_flatMap.mpr ⟨(typeName, entry), Table.mem_toList.mpr registered, ?_⟩
    dsimp only
    rw [if_neg (show typeName ∉ [Vocabulary.publishResult, Vocabulary.streamInput] from free), object,
      show a.eventSubject.roots.operation? typeName = some operation from root]
    exact List.mem_map.mpr ⟨(name, field), Table.mem_toList.mpr known, rfl⟩
  exact ⟨List.filterMap_eq_nil_iff.mp (ite_isEmpty_eq_nil_iff.mp bound) _ member,
    List.filterMap_eq_nil_iff.mp (ite_isEmpty_eq_nil_iff.mp published) _ member,
    List.filterMap_eq_nil_iff.mp (ite_isEmpty_eq_nil_iff.mp answered) _ member⟩

theorem publishResult {entry : TypeEntry} (registered : a.types.get? Vocabulary.publishResult = some entry) :
    ∃ c field, entry.shape = .object c ∧ c.fields.toList = [(Vocabulary.success, field)] ∧
      field.arguments.toList = [] ∧ field.type = .named "Boolean" true := by
  have quiet := q.faults
  simp only [Event.Subject.faults, List.append_eq_nil_iff] at quiet
  obtain ⟨⟨⟨⟨⟨⟨⟨⟨valid, -⟩, -⟩, -⟩, -⟩, -⟩, -⟩, -⟩, -⟩ := quiet
  have sound : a.eventSubject.isPublishResultValid = true := by
    split at valid
    · assumption
    · exact absurd valid (List.cons_ne_nil _ _)
  unfold Event.Subject.isPublishResultValid at sound
  rw [show a.eventSubject.types.get? Vocabulary.publishResult = some entry from registered] at sound
  dsimp only at sound
  split at sound
  · next c object =>
    simp only [Bool.and_eq_true, decide_eq_true_eq, Option.any_eq_true, Table.size] at sound
    obtain ⟨single, field, known, noArguments, type⟩ := sound
    -- There is one field, and it is the one that is found under the name.
    obtain ⟨only, fields⟩ := List.length_eq_one_iff.mp (of_decide_eq_true single)
    have member := Table.mem_toList.mpr known
    rw [fields, List.mem_singleton] at member
    exact ⟨c, field, object, member ▸ fields, List.isEmpty_iff.mp noArguments, type⟩
  · exact absurd sound Bool.false_ne_true

theorem streamInput (used : Vocabulary.natsSubscribe ∈ a.setting.applied.toList) :
    ∃ entry values, a.types.get? Vocabulary.streamInput = some entry ∧ entry.shape = .inputObject values ∧
      values.size = 2 ∧ ∀ name ∈ Event.StreamConfiguration.fieldNames, ∃ value,
        values.get? name = some value ∧ value.type = .named "String" true := by
  have quiet := q.faults
  simp only [Event.Subject.faults, List.append_eq_nil_iff] at quiet
  obtain ⟨⟨⟨⟨⟨⟨⟨⟨-, input⟩, -⟩, -⟩, -⟩, -⟩, -⟩, -⟩, -⟩ := quiet
  have applied : a.eventSubject.applied.contains Vocabulary.natsSubscribe = true :=
    OrderedSet.contains_iff.mpr (List.mem_filter.mpr ⟨used, by decide⟩)
  unfold Event.Subject.streamInputFaults at input
  rw [if_pos applied] at input
  split at input
  · exact absurd input (List.cons_ne_nil _ _)
  · next entry registered =>
    split at input
    · next sound =>
      unfold Event.Subject.isStreamInput at sound
      split at sound
      · next values object =>
        simp only [Bool.and_eq_true, decide_eq_true_eq, List.all_eq_true, Option.any_eq_true] at sound
        exact ⟨entry, values, registered, object, sound⟩
      · exact absurd sound Bool.false_ne_true
    · exact absurd input (List.cons_ne_nil _ _)

end EventQuiet

/-- What leads to an entity is one or has one among its concrete types, which only abstract types have. -/
theorem leadsToEntity (coherent : Survey.Coherent a.setting past a.survey)
    (quiet : ∀ e ∈ a.ownTypes, a.typeErrors e.1 e.2 = [])
    (proper : ∀ typeName, a.isSupportType typeName = true → ∀ i ∈ a.types.implemented typeName,
      a.types.kind? i = some .interface)
    {typeName : String} (leads : a.eventSubject.leadsToEntity typeName = true) : a.result.LeadsToEntity typeName := by
  unfold Event.Subject.leadsToEntity at leads
  split at leads
  · next names found =>
    obtain ⟨name, member, entity⟩ := List.any_eq_true.mp leads
    have concrete : name ∈ (a.survey.concrete.of typeName).toList := by
      rw [ConcreteTypes.of, Table.getD, show a.survey.concrete.get? typeName = some names from found]
      exact member
    refine .inr ⟨?_, name, concrete, entity⟩
    -- What is concrete for a type is a member of it or implements it.
    rcases (coherent.concrete typeName name).mp concrete with ⟨union, -⟩ | implemented
    · exact .inl union
    · refine .inr ?_
      cases support : a.isSupportType name with
      | true => exact proper name support typeName implemented
      | false => exact kind?_of_implemented quiet support implemented
  · exact .inl leads

end Assembly

section Normal

variable {options : NormalizationOptions} {statements : List Statement} {n : NormalSubgraph}

/-- A valid event-driven subgraph has the shape of one, but for root types with the names of the result of publishing
and of the configuration of a stream, which have it where their fields are bound. The scalars of every document may not
be objects that implement anything but interfaces. -/
theorem eventShaped_iff (valid : (normalize options statements).result? = some n)
    (applies : ∃ d ∈ statements.flatMap Overview.appliedIn, Event.isEvent d = true)
    (proper : ∀ typeName, n.IsSupportType typeName → ∀ i ∈ n.types.implemented typeName,
      n.types.kind? i = some .interface) :
    n.EventShaped statements ↔ ∀ typeName ∈ Event.reservedTypes, n.BindsRootFields typeName := by
  refine ⟨fun shaped typeName _ => shaped.rootFields typeName, fun reserved => ?_⟩
  obtain ⟨clean, rfl⟩ := result_of_normalize valid
  have v := Assembly.valid_of options.subgraph options.maxOrScopes statements clean
  have driven : (Assembly.of options.subgraph options.maxOrScopes statements).setting.isEventDriven = true :=
    Setting.isEventDriven_of.mpr applies
  have used : (∃ d ∈ statements.flatMap Overview.appliedIn, d.name = Vocabulary.natsSubscribe) →
      Vocabulary.natsSubscribe ∈
        (Assembly.of options.subgraph options.maxOrScopes statements).setting.applied.toList :=
    Setting.mem_applied_of.mpr
  simp only [Assembly.errors, List.append_eq_nil_iff, List.flatMap_eq_nil_iff] at clean
  obtain ⟨⟨⟨⟨⟨⟨⟨⟨⟨survey, -⟩, types⟩, -⟩, -⟩, fieldSets⟩, -⟩, events⟩, -⟩, -⟩ := clean
  have keys : (Assembly.of options.subgraph options.maxOrScopes statements).survey.RecordsKeys :=
    Survey.recordsKeys_walk ..
  generalize same : Assembly.of options.subgraph options.maxOrScopes statements = a at *
  have q : a.EventQuiet := ⟨fieldSets, same ▸ keys, by
    unfold Assembly.eventErrors at events
    rw [if_pos driven] at events
    exact ite_isEmpty_eq_nil_iff.mp events⟩
  refine ⟨fun typeName entry c free noRoot => q.consistsOfKeys free noRoot, fun typeName => ?_,
    fun entry => q.publishResult, fun applied => q.streamInput (used applied)⟩
  -- Only the fields of the reserved types go unchecked.
  by_cases free : typeName ∈ Event.reservedTypes
  · exact reserved typeName free
  intro entry c operation registered object root name field known
  obtain ⟨bound, published, answered⟩ := q.rootFields free registered object root known
  obtain ⟨some, permitted⟩ := Event.Subject.permits_of_rootFieldFault? bound
  refine ⟨some, permitted, fun mutation => ?_, fun other => ?_⟩
  · simpa [Event.Subject.mutationResponseFault?, mutation] using published
  · obtain ⟨nonNull, leads⟩ : field.type.isNonNull = true ∧
        a.eventSubject.leadsToEntity field.type.namedType = true := by
      simpa [Event.Subject.rootResponseFault?, other] using answered
    refine ⟨nonNull, Assembly.leadsToEntity v.coherent (fun e member => types e member) ?_ leads⟩
    intro typeName support
    refine proper typeName ?_
    simpa [NormalSubgraph.IsSupportType, Assembly.isSupportType, Assembly.result] using support

end Normal

theorem eventShaped_request : ∃ n, (normalize .default [.define (.type (entityQuery [natsRequest "s"])),
      .define (.type (entityType []))]).result? = some n ∧
    n.EventShaped [.define (.type (entityQuery [natsRequest "s"])), .define (.type (entityType []))] := by
  have checked : (normalize .default [.define (.type (entityQuery [natsRequest "s"])),
      .define (.type (entityType []))]).result?.any (fun n =>
        Event.reservedTypes.all (fun typeName => !n.types.contains typeName) &&
          [Vocabulary.fieldSetScalar, Vocabulary.scopeScalar].all fun typeName => n.types.implemented typeName = []) =
      true := by
    decide +kernel
  simp only [Option.any_eq_true, Bool.and_eq_true, List.all_eq_true, Bool.not_eq_true', decide_eq_true_eq] at checked
  obtain ⟨n, valid, unregistered, nothing⟩ := checked
  refine ⟨n, valid, (eventShaped_iff valid ⟨natsRequest "s", ?_, by decide⟩ ?_).mpr ?_⟩
  · simp [Overview.appliedIn, Overview.appliedOnType, Overview.appliedOnField, entityQuery]
  · intro typeName support i implemented
    have listed : typeName ∈ [Vocabulary.fieldSetScalar, Vocabulary.scopeScalar] := by
      rcases support with rfl | ⟨-, rfl⟩ <;> simp
    exact absurd (nothing typeName listed ▸ implemented) List.not_mem_nil
  · intro typeName reserved entry c operation registered
    have known := Table.contains_iff.mpr (Table.mem_keys_of_get? registered)
    exact absurd (known.symm.trans (unregistered typeName reserved)) Bool.noConfusion

/-- The type of the results of publishing, with the one field that it has to have. -/
def resultType : TypeDefinition :=
  ⟨Vocabulary.publishResult, none, [], .object [] [⟨Vocabulary.success, none, [], .named "Boolean" true, []⟩]⟩

/-- Where the type of the results of publishing is the root type of mutations, nobody asks what binds its field. And an
object with the name of a scalar of every document makes an enum that it implements lead to an entity. -/
theorem not_eventShaped_reserved :
    (∃ n, (normalize .default [.define (.schema ⟨[], [(.query, "Query"), (.mutation, Vocabulary.publishResult)]⟩),
        .define (.type (entityQuery [natsRequest "s"])), .define (.type (entityType [])),
        .define (.type resultType)]).result? = some n ∧
      ∀ statements, ¬ n.EventShaped statements) ∧
    ∃ n, (normalize .default [.define (.type (entityQuery [natsRequest "s"])),
        .define (.type ⟨"E", none, [], .enum [⟨"A", none, []⟩]⟩),
        .define (.type { entityType [] with
          name := Vocabulary.fieldSetScalar
          body := .object ["E"] [⟨"id", none, [], .named "ID" true, [⟨Vocabulary.external, []⟩]⟩] })]).result? =
          some n ∧
      ∀ statements, ¬ n.EventShaped statements := by
  have published : (normalize .default [
      .define (.schema ⟨[], [(.query, "Query"), (.mutation, Vocabulary.publishResult)]⟩),
      .define (.type (entityQuery [natsRequest "s"])), .define (.type (entityType [])),
      .define (.type resultType)]).result?.any (fun n =>
        n.roots.operation? Vocabulary.publishResult = some .mutation &&
          n.types.kind? Vocabulary.publishResult = some .object &&
          (n.types.field? Vocabulary.publishResult Vocabulary.success).any fun field =>
            Vocabulary.eventDirectives.all fun e => !field.directives.contains e) = true := by
    decide +kernel
  have enumerated : (normalize .default [.define (.type (entityQuery [natsRequest "s"])),
      .define (.type ⟨"E", none, [], .enum [⟨"A", none, []⟩]⟩),
      .define (.type { entityType [] with
        name := Vocabulary.fieldSetScalar
        body := .object ["E"] [⟨"id", none, [], .named "ID" true, [⟨Vocabulary.external, []⟩]⟩] })]).result?.any (fun n =>
        n.roots.operation? "Query" = some .query && n.types.kind? "Query" = some .object &&
          n.types.kind? "E" = some .enum && !n.types.isEntity "E" &&
          (n.types.field? "Query" "e").any fun field => field.type = .named "E" true) = true := by
    decide +kernel
  simp only [Option.any_eq_true, Bool.and_eq_true, List.all_eq_true, Bool.not_eq_true', decide_eq_true_eq]
    at published enumerated
  constructor
  · obtain ⟨n, valid, ⟨root, object⟩, field, known, unbound⟩ := published
    refine ⟨n, valid, fun statements shaped => ?_⟩
    obtain ⟨e, event, carried⟩ := (shaped.bindsRootField root object known).bound
    exact absurd (carried.symm.trans (unbound e event)) Bool.noConfusion
  · obtain ⟨n, valid, ⟨⟨⟨root, object⟩, kind⟩, noEntity⟩, field, known, type⟩ := enumerated
    refine ⟨n, valid, fun statements shaped => ?_⟩
    obtain ⟨-, entity | ⟨abstract, -⟩⟩ := (shaped.bindsRootField root object known).responds (by decide)
    · rw [type] at entity
      exact absurd (entity.symm.trans noEntity) Bool.noConfusion
    · rw [type] at abstract
      simp [TypeRef.namedType, kind] at abstract

end Federation
