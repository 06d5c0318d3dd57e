import Federation.Proofs.Survey.Event

/-!
# Keys that a survey records

The raw field sets that a survey records for the keys of a type are those of the keys that the type keeps, and no two of
these have one field set. So it can be read off the registry which keys can be resolved.
-/

namespace Federation

open Schema

namespace Schema

/-- The field set of a key. -/
def Directive.keyFields? (key : Directive) : Option String := key.string? Vocabulary.fields

/-- Whether a key can be resolved. Where nothing is said, it can. -/
def Directive.isResolvableKey (key : Directive) : Bool :=
  ((key.argument? Vocabulary.resolvable).bind Value.boolean?).getD true

/-- Kinds of types that have fields and may have keys. -/
def TypeKind.hasFields : TypeKind → Bool
  | .object | .interface => true
  | .enum | .inputObject | .scalar | .union => false

end Schema

/-! ## The field sets of a list of keys -/

namespace KeySets

/-- Adds the field set of a key, unless it is there. -/
def add (sets : KeySets) (key : Directive) : KeySets :=
  match key.keyFields? with
  | none => sets
  | some fieldSet => sets.insertNew fieldSet key.isResolvableKey

/-- The field sets of keys, each as the first key of that field set says. -/
def ofKeys (keys : List Directive) : KeySets := keys.foldl add .empty

theorem get?_foldl_add (keys : List Directive) (sets : KeySets) (fieldSet : String) :
    Table.get? (keys.foldl add sets) fieldSet = (Table.get? sets fieldSet).or
      ((keys.find? (·.keyFields? = some fieldSet)).map Directive.isResolvableKey) := by
  induction keys generalizing sets with
  | nil => simp
  | cons key rest ih =>
    rw [List.foldl_cons, ih, add, List.find?_cons]
    cases written : key.keyFields? with
    | none => simp
    | some other =>
      simp only [Table.insertNew, Table.get?_upsert, Option.some.injEq]
      by_cases same : fieldSet = other
      · subst same
        cases Table.get? sets fieldSet <;> simp
      · simp [same, Ne.symm same]

theorem get?_ofKeys (keys : List Directive) (fieldSet : String) : Table.get? (ofKeys keys) fieldSet =
    (keys.find? (·.keyFields? = some fieldSet)).map Directive.isResolvableKey := by
  rw [ofKeys, get?_foldl_add]
  rfl

theorem mem_keys_ofKeys {keys : List Directive} {fieldSet : String} :
    fieldSet ∈ Table.keys (ofKeys keys) ↔ ∃ key ∈ keys, key.keyFields? = some fieldSet := by
  rw [← Table.get?_isSome_iff, get?_ofKeys, Option.isSome_map, List.find?_isSome]
  exact exists_congr fun key => and_congr_right fun _ => decide_eq_true_iff

/-- Keys whose field sets are there add nothing. -/
theorem foldl_add_of_mem {keys : List Directive} {sets : KeySets}
    (present : ∀ key ∈ keys, ∀ fieldSet, key.keyFields? = some fieldSet → fieldSet ∈ Table.keys sets) :
    keys.foldl add sets = sets := by
  induction keys with
  | nil => rfl
  | cons key rest ih =>
    have first : add sets key = sets := by
      unfold add
      cases written : key.keyFields? with
      | none => rfl
      | some fieldSet => exact Table.insertNew_of_mem (present key List.mem_cons_self fieldSet written) _
    rw [List.foldl_cons, first, ih fun other member => present other (List.mem_cons_of_mem key member)]

/-- Going through the keys once more with new ones behind them adds the new ones. -/
theorem foldl_add_ofKeys (keys later : List Directive) :
    (keys ++ later).foldl add (ofKeys keys) = ofKeys (keys ++ later) := by
  have again : keys.foldl add (ofKeys keys) = ofKeys keys := by
    exact foldl_add_of_mem fun key member _ written => mem_keys_ofKeys.mpr ⟨key, member, written⟩
  rw [List.foldl_append, again, ofKeys, ofKeys, List.foldl_append]

end KeySets

/-! ## Keys that are kept -/

namespace AppliedDirectives

/-- Whether all keys have field sets of their own. -/
def HasDistinctKeys (applied : AppliedDirectives) : Prop :=
  (applied.named Vocabulary.key).Pairwise fun first second =>
    ∀ fieldSet, first.keyFields? = some fieldSet → second.keyFields? ≠ some fieldSet

/-- From one table to the other applications are only put behind others. -/
structure Extends (before after : AppliedDirectives) : Prop where
  named : ∀ name, before.named name <+: after.named name
  keys : ∀ name, Table.contains before name = true → Table.contains after name = true

namespace Extends

theorem refl (applied : AppliedDirectives) : Extends applied applied :=
  ⟨fun _ => List.prefix_refl _, fun _ => id⟩

theorem trans {a b c : AppliedDirectives} (first : Extends a b) (second : Extends b c) : Extends a c :=
  ⟨fun name => (first.named name).trans (second.named name), fun name => second.keys name ∘ first.keys name⟩

theorem add (applied : AppliedDirectives) (d : Directive) : Extends applied (applied.add d) := by
  refine ⟨fun name => ?_, fun name present => ?_⟩
  · rw [named_add]
    split
    · next same => exact same ▸ List.prefix_append _ _
    · exact List.prefix_refl _
  · exact Table.contains_iff.mpr (Table.mem_keys_upsert.mpr (.inl (Table.contains_iff.mp present)))

end Extends

end AppliedDirectives

namespace Intake

variable (setting : Setting) (location : Location) (hostPath : String)

theorem extends_run (applied : List Directive) (i : Intake) :
    i.accepted.Extends (applied.foldl (step setting location hostPath) i).accepted := by
  refine List.foldlRecOn (motive := fun i' : Intake => i.accepted.Extends i'.accepted) applied _ (.refl _)
    fun i' before d _ => ?_
  rcases accepted_step setting location hostPath i' d with same | ⟨-, -, added⟩
  · exact same ▸ before
  · exact added ▸ before.trans (.add i'.accepted d)

/-- A key whose field set is there is not kept. -/
theorem hasDistinctKeys_run (applied : List Directive) (i : Intake) (before : i.accepted.HasDistinctKeys) :
    (applied.foldl (step setting location hostPath) i).accepted.HasDistinctKeys := by
  -- A key that is put behind the others was not known, so its field set is none of theirs.
  refine List.foldlRecOn (motive := fun i' : Intake => i'.accepted.HasDistinctKeys) applied _ before
    fun i' distinct d _ => ?_
  rcases accepted_step setting location hostPath i' d with same | ⟨-, kept, added⟩
  · rw [same]
    exact distinct
  · rw [added, AppliedDirectives.HasDistinctKeys, AppliedDirectives.named_add]
    split
    · next key =>
      rw [← key]
      refine List.pairwise_append.mpr ⟨distinct, List.pairwise_singleton _ _, fun earlier member d' same => ?_⟩
      obtain rfl := List.mem_singleton.mp same
      intro fieldSet written again
      have known : isKnownKey i'.accepted d' = true := by
        unfold isKnownKey
        rw [show d'.string? Vocabulary.fields = some fieldSet from again]
        exact List.any_eq_true.mpr ⟨earlier, member, decide_eq_true written⟩
      simp [isSetAside, ← key, known] at kept
    · exact distinct

end Intake

/-! ## The whole survey -/

/-- The field sets of the keys of a registered type. -/
def Registry.declaredKeys (types : Registry) (typeName : String) : Option KeySets :=
  if (types.kind? typeName).any TypeKind.hasFields && (types.applied typeName).contains Vocabulary.key then
    some (.ofKeys ((types.applied typeName).named Vocabulary.key))
  else none

namespace Survey

/-- The keys that are recorded agree with those that the types keep. -/
structure RecordsKeys (s : Survey) : Prop where
  keySets : ∀ typeName, s.keySets.get? typeName = s.types.declaredKeys typeName
  distinct : ∀ typeName, (s.types.applied typeName).HasDistinctKeys

variable {setting : Setting} {s : Survey}

theorem RecordsKeys.eq_ofKeys (recorded : RecordsKeys s) {typeName : String} {sets : KeySets}
    (found : s.keySets.get? typeName = some sets) :
    sets = .ofKeys ((s.types.applied typeName).named Vocabulary.key) := by
  have declared := (recorded.keySets typeName).symm.trans found
  unfold Registry.declaredKeys at declared
  split at declared
  · exact (Option.some.inj declared).symm
  · cases declared

theorem recordsKeys_of_eq {s' : Survey} (keySets : s'.keySets = s.keySets)
    (kind? : ∀ typeName, s'.types.kind? typeName = s.types.kind? typeName)
    (applied : ∀ typeName, s'.types.applied typeName = s.types.applied typeName) (before : RecordsKeys s) :
    RecordsKeys s' := by
  refine ⟨fun typeName => ?_, fun typeName => applied typeName ▸ before.distinct typeName⟩
  rw [keySets, before.keySets, Registry.declaredKeys, Registry.declaredKeys, kind?, applied]

/-- The keys of a type after its directives are taken in. -/
def keysWith (s : Survey) (typeName : String) (accepted : AppliedDirectives) : Table String KeySets :=
  if accepted.contains Vocabulary.key then
    s.keySets.upsert typeName fun old => (accepted.named Vocabulary.key).foldl KeySets.add (old.getD .empty)
  else s.keySets

theorem keySets_recordKeys (typeName : String) (accepted : AppliedDirectives) :
    (s.recordKeys typeName accepted).keySets = s.keysWith typeName accepted := by
  unfold recordKeys keysWith
  dsimp only
  split <;> rfl

theorem keySets_takeInType (t : TypeDefinition) (old? : Option TypeEntry) : (s.takeInType setting t old?).2.keySets =
    if t.kind.hasFields then s.keysWith t.name (s.takeInType setting t old?).1.accepted else s.keySets := by
  unfold takeInType
  dsimp only
  cases t.kind
  case object | interface => exact keySets_recordKeys ..
  all_goals rfl

/-- Keys that were recorded before are those of the directives that were there before. -/
theorem RecordsKeys.getD_keySets {typeName : String} {kind : TypeKind} (before : RecordsKeys s)
    (fields : kind.hasFields = true) (same : ∀ other, s.types.kind? typeName = some other → other = kind) :
    (s.keySets.get? typeName).getD .empty = .ofKeys ((s.types.applied typeName).named Vocabulary.key) := by
  rw [before.keySets, Registry.declaredKeys]
  split
  · rfl
  · next unkeyed =>
    -- A type of which no keys are recorded has none: it is not registered, or was registered without.
    have nothing : (s.types.applied typeName).named Vocabulary.key = [] := by
      cases known : s.types.kind? typeName with
      | none =>
        have unregistered : s.types.get? typeName = none := by simpa [Registry.kind?] using known
        simp [Registry.applied, unregistered]
      | some other =>
        obtain rfl := same other known
        have absent : Vocabulary.key ∉ Table.keys (s.types.applied typeName) := by
          simpa [known, fields, Table.contains_iff] using unkeyed
        simp [AppliedDirectives.named, Table.getD, Table.get?_eq_none_iff.mpr absent]
    rw [nothing]
    rfl

namespace TypeMerge

variable {m : TypeMerge}

theorem applied_after_eq : m.after.types.applied m.type.name =
    (Intake.run m.setting m.type.kind.location m.type.name (m.before.types.applied m.type.name) m.noted.repeats
      m.type.directives).accepted := by
  rw [m.applied_after, taken, intake_takeInType]
  rfl

/-- The directives on a type are put behind those that it has. -/
theorem extends_applied :
    (m.before.types.applied m.type.name).Extends (m.after.types.applied m.type.name) := by
  rw [applied_after_eq]
  exact Intake.extends_run m.setting m.type.kind.location m.type.name m.type.directives
    ⟨m.before.types.applied m.type.name, [], m.noted.repeats, []⟩

theorem hasDistinctKeys_applied (before : (m.before.types.applied m.type.name).HasDistinctKeys) :
    (m.after.types.applied m.type.name).HasDistinctKeys := by
  rw [applied_after_eq]
  exact Intake.hasDistinctKeys_run m.setting m.type.kind.location m.type.name m.type.directives
    ⟨m.before.types.applied m.type.name, [], m.noted.repeats, []⟩ before

theorem keySets_after : m.after.keySets =
    if m.type.kind.hasFields then m.before.keysWith m.type.name (m.after.types.applied m.type.name)
    else m.before.keySets := by
  have later : m.after.keySets = m.taken.2.keySets := m.writes_later.same .keySets (by decide)
  have noted : m.noted.keySets = m.before.keySets := m.writes_noted.same .keySets (by decide)
  rw [later, m.applied_after, taken, keySets_takeInType, keysWith, keysWith, noted]

/-- The keys of the type are recorded as it has them then. -/
theorem get?_keySets_after (sameKind : ∀ kind, m.before.types.kind? m.type.name = some kind → kind = m.type.kind)
    (before : RecordsKeys m.before) :
    m.after.keySets.get? m.type.name = m.after.types.declaredKeys m.type.name := by
  rw [keySets_after, Registry.declaredKeys, kind?_of_mergesType m.mergesType sameKind, if_pos rfl]
  cases fields : m.type.kind.hasFields with
  | false =>
    have unkeyed : (m.before.types.kind? m.type.name).any TypeKind.hasFields = false := by
      cases known : m.before.types.kind? m.type.name with
      | none => rfl
      | some kind => exact sameKind kind known ▸ fields
    rw [if_neg Bool.false_ne_true, before.keySets, Registry.declaredKeys]
    simp [unkeyed, fields]
  | true =>
    rw [if_pos rfl, keysWith]
    cases keyed : (m.after.types.applied m.type.name).contains Vocabulary.key with
    | false =>
      -- Without a key now there was none before.
      have unkeyed : (m.before.types.applied m.type.name).contains Vocabulary.key = false :=
        Bool.eq_false_iff.mpr fun present => Bool.false_ne_true (keyed.symm.trans (extends_applied.keys _ present))
      simp [before.keySets, Registry.declaredKeys, unkeyed]
    | true =>
      obtain ⟨later, all⟩ := (extends_applied (m := m)).named Vocabulary.key
      rw [if_pos rfl, Table.get?_upsert, if_pos rfl, before.getD_keySets fields sameKind, ← all,
        KeySets.foldl_add_ofKeys]
      simp [fields]

theorem get?_keySets_after_of_ne {typeName : String} (other : typeName ≠ m.type.name) :
    m.after.keySets.get? typeName = m.before.keySets.get? typeName := by
  rw [keySets_after]
  split
  · unfold keysWith
    split
    · rw [Table.get?_upsert, if_neg other]
    · rfl
  · rfl

theorem applied_after_of_ne {typeName : String} (other : typeName ≠ m.type.name) :
    m.after.types.applied typeName = m.before.types.applied typeName := by
  rw [Registry.applied, m.types_after, Table.get?_insert, if_neg other, Registry.applied]

theorem recordsKeys (sameKind : ∀ kind, m.before.types.kind? m.type.name = some kind → kind = m.type.kind)
    (before : RecordsKeys m.before) : RecordsKeys m.after := by
  refine ⟨fun typeName => ?_, fun typeName => ?_⟩
  all_goals by_cases here : typeName = m.type.name
  · exact here ▸ get?_keySets_after sameKind before
  · rw [get?_keySets_after_of_ne here, before.keySets, Registry.declaredKeys, Registry.declaredKeys,
      kind?_of_mergesType m.mergesType sameKind, if_neg here, applied_after_of_ne here]
  · exact here ▸ hasDistinctKeys_applied (before.distinct _)
  · exact applied_after_of_ne here ▸ before.distinct typeName

end TypeMerge

theorem recordsKeys_merge {isExtension : Bool} {t : TypeDefinition}
    (sameKind : ∀ kind, s.types.kind? t.name = some kind → kind = t.kind) (before : RecordsKeys s) :
    RecordsKeys (s.merge setting isExtension t) :=
  TypeMerge.recordsKeys (m := ⟨setting, isExtension, t, s⟩) sameKind before

theorem recordsKeys_look (l : Look) (before : RecordsKeys s) : RecordsKeys (s.look setting l) := by
  have looked := looked_look setting s l
  generalize s.look setting l = s' at looked ⊢
  cases looked with
  | retained _ _ kept written =>
    exact recordsKeys_of_eq (written.same .keySets (by decide)) kept.kind? kept.applied before
  | type sameKind => exact recordsKeys_merge sameKind before
  | conflict | duplicate => exact ⟨before.keySets, before.distinct⟩
  | passed => exact before
  | @field isExtension t f entry =>
    obtain ⟨kind?, -, applied⟩ := retains_of_mergesField
      (mergesField_mergeField setting t.name entry (s.types.field? t.name f.name) f s)
    exact recordsKeys_of_eq (recordsField_mergeField ..).keySets kind? applied before

/-- A survey records the keys of the registry, whatever it reports. -/
theorem recordsKeys_walk (setting : Setting) (errors : List Error) (statements : List Statement) :
    RecordsKeys (walk setting errors statements) :=
  walk_recOn ⟨fun _ => rfl, fun _ => List.Pairwise.nil⟩ fun _ _ _ l _ before => recordsKeys_look l before

end Survey

end Federation
