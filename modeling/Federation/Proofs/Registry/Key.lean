import Federation.Proofs.Normalization.Sightings
import Federation.Proofs.Registry.Union
import Federation.Proofs.Survey.Key

/-!
# Keys over all definitions of a type

Keys may stand on any definition or extension of a type. What the registry keeps of them tells as much of their field
sets as all of them together: which there are, in which order they first come up, and what the first key that has one
makes of it.
-/

namespace Federation

open Schema

namespace KeySets

/-- The field sets of keys are listed as they first come up. -/
theorem keys_ofKeys (keys : List Directive) :
    Table.keys (ofKeys keys) = (OrderedSet.ofList (keys.filterMap Directive.keyFields?)).toList := by
  -- From any key sets, so that the induction can pass the first key.
  have fold : ∀ (sets : KeySets) (names : NameSet), Table.keys sets = names.toList →
      Table.keys (keys.foldl add sets) = (names.insertAll (keys.filterMap Directive.keyFields?)).toList := by
    induction keys with
    | nil => exact fun _ _ same => same
    | cons key rest ih =>
      intro sets names same
      rw [List.foldl_cons, List.filterMap_cons, add]
      cases written : key.keyFields? with
      | none => exact ih sets names same
      | some fieldSet =>
        refine ih (sets.insertNew fieldSet key.isResolvableKey) (names.insert fieldSet) ?_
        rw [OrderedSet.toList_insert, ← same]
        exact Table.keys_upsert ..
  exact fold .empty .empty rfl

theorem ofKeys_append_singleton (keys : List Directive) (key : Directive) :
    ofKeys (keys ++ [key]) = add (ofKeys keys) key := List.foldl_append

end KeySets

/-- The keys among some directives. -/
def keysAmong (directives : List Directive) : List Directive := directives.filter (·.name = Vocabulary.key)

/-- Whether a host keeps of some keys all that counts: that there are any, and what they say of field sets. -/
structure AppliedDirectives.HasKeys (applied : AppliedDirectives) (keys : List Directive) : Prop where
  contains_iff : applied.contains Vocabulary.key = true ↔ keys ≠ []
  fieldSets : KeySets.ofKeys (applied.named Vocabulary.key) = .ofKeys keys

namespace Intake

variable {setting : Setting} {location : Location} {hostPath : String} {keys : List Directive}

/-- A key that may stand in its place is kept, unless its field set is there. -/
theorem accepted_step_key {i : Intake} {d : Directive} (key : d.name = Vocabulary.key)
    (allowed : setting.Allows location d) : (step setting location hostPath i d).accepted =
      if isKnownKey i.accepted d then i.accepted else i.accepted.add d := by
  obtain ⟨definition, defined, placed, sound⟩ := allowed
  have repeatable : definition.isRepeatable = true := by
    rw [key] at defined
    rw [← Option.some.inj defined]
    rfl
  have admitted : Admits setting location i.accepted d :=
    ⟨definition, defined, placed, sound, fun single => absurd (repeatable.symm.trans single) Bool.noConfusion⟩
  -- A key cannot override, and the only way for it to be set aside is to be known already.
  have own : overridesItself setting d = false := by
    simp [overridesItself, key, Vocabulary.key, Vocabulary.override]
  have aside : isSetAside location i.accepted d = isKnownKey i.accepted d := by
    simp [isSetAside, key, Vocabulary.key, Vocabulary.override, Vocabulary.extendsDirective, Vocabulary.authenticated,
      Vocabulary.requiresScopes]
  rw [(step_of_admits admitted hostPath).1, own, aside, Bool.false_or]

theorem hasKeys_step {i : Intake} {d : Directive} (before : i.accepted.HasKeys keys)
    (allowed : d.name = Vocabulary.key → setting.Allows location d) :
    (step setting location hostPath i d).accepted.HasKeys (keys ++ keysAmong [d]) := by
  by_cases key : d.name = Vocabulary.key
  · have one : keysAmong [d] = [d] := by simp [keysAmong, key]
    rw [accepted_step_key key (allowed key), one]
    split
    · next known =>
      -- The field set is that of a key that is there.
      obtain ⟨fieldSet, written, earlier, kept, same⟩ : ∃ fieldSet, d.keyFields? = some fieldSet ∧
          ∃ earlier ∈ i.accepted.named Vocabulary.key, earlier.keyFields? = some fieldSet := by
        unfold isKnownKey at known
        split at known
        · cases known
        · next fieldSet written => exact ⟨fieldSet, written, by simpa [Directive.keyFields?] using known⟩
      refine ⟨iff_of_true (AppliedDirectives.contains_of_mem_named kept) (by simp), ?_⟩
      have listed : fieldSet ∈ Table.keys (KeySets.ofKeys keys) :=
        before.fieldSets ▸ KeySets.mem_keys_ofKeys.mpr ⟨earlier, kept, same⟩
      rw [before.fieldSets, KeySets.ofKeys_append_singleton, KeySets.add, written]
      exact (Table.insertNew_of_mem listed _).symm
    · refine ⟨iff_of_true ?_ (by simp), ?_⟩
      · exact AppliedDirectives.contains_of_mem_named (d := d) (by simp [AppliedDirectives.named_add, key])
      · rw [AppliedDirectives.named_add, if_pos key.symm, key, KeySets.ofKeys_append_singleton,
          KeySets.ofKeys_append_singleton, before.fieldSets]
  · have none : keysAmong [d] = [] := by simp [keysAmong, key]
    rw [none, List.append_nil]
    rcases accepted_step setting location hostPath i d with same | ⟨-, -, added⟩
    · exact same ▸ before
    · have other := Ne.symm key
      rw [added]
      refine ⟨Iff.trans ?_ before.contains_iff, ?_⟩
      · rw [Table.contains_iff, Table.contains_iff, AppliedDirectives.add, Table.mem_keys_upsert]
        exact or_iff_left other
      · rw [AppliedDirectives.named_add, if_neg other, before.fieldSets]

/-- What a host has of keys after a declaration is what it had before, with the keys of the declaration. -/
theorem hasKeys_run {accepted : AppliedDirectives} {repeats : Repeats} {applied : List Directive}
    (before : accepted.HasKeys keys) (allowed : ∀ d ∈ keysAmong applied, setting.Allows location d) :
    (run setting location hostPath accepted repeats applied).accepted.HasKeys (keys ++ keysAmong applied) := by
  have fold : ∀ (i : Intake) (keys : List Directive), i.accepted.HasKeys keys →
      (applied.foldl (step setting location hostPath) i).accepted.HasKeys (keys ++ keysAmong applied) := by
    induction applied with
    | nil => exact fun i keys before => (List.append_nil keys).symm ▸ before
    | cons d rest ih =>
      intro i keys before
      have split : keysAmong (d :: rest) = keysAmong [d] ++ keysAmong rest := List.filter_append [d] rest
      rw [List.foldl_cons, split, ← List.append_assoc]
      refine ih (fun e member => allowed e ?_) _ _ (hasKeys_step before fun key => allowed d ?_)
      · exact split ▸ List.mem_append_right _ member
      · exact List.mem_filter.mpr ⟨List.mem_cons_self, decide_eq_true key⟩
  exact fold _ _ before

end Intake

/-! ## Sighting by sighting -/

namespace TypeEntry

variable {setting : Setting}

theorem directives_joined (isExtension : Bool) (t : TypeDefinition) (old? : Option TypeEntry) :
    (joined setting isExtension t old?).directives = (intake setting t old?).accepted := by
  cases old? <;> rfl

/-- A sighting that has the kind of the entry adds its keys. -/
theorem hasKeys_grown {old? : Option TypeEntry} {x : Sighting} {keys : List Directive}
    (sameKind : ∀ old, old? = some old → old.kind = x.type.kind)
    (before : ((old?.map TypeEntry.directives).getD .empty).HasKeys keys)
    (allowed : ∀ d ∈ x.type.directives, setting.Allows x.type.kind.location d) :
    ∃ entry, grown setting old? x = some entry ∧ entry.kind = x.type.kind ∧
      entry.directives.HasKeys (keys ++ keysAmong x.type.directives) := by
  obtain ⟨entry, made, around, kind⟩ := exists_grown setting old? x sameKind
  refine ⟨entry, made, kind, ?_⟩
  rw [around.directives, directives_joined]
  exact Intake.hasKeys_run before fun d member => allowed d (List.mem_filter.mp member).1

/-- The entry of a type keeps the keys of all its sightings. -/
theorem hasKeys_ofSightings {xs : List Sighting} {kind : TypeKind} (sameKind : ∀ x ∈ xs, x.type.kind = kind)
    (allowed : ∀ x ∈ xs, ∀ d ∈ x.type.directives, setting.Allows x.type.kind.location d) :
    (((ofSightings setting xs).map TypeEntry.directives).getD .empty).HasKeys
      (keysAmong (xs.flatMap (·.type.directives))) := by
  -- From any entry with its keys: each sighting puts those of its own behind them.
  have fold : ∀ (old? : Option TypeEntry) (keys : List Directive), (∀ old, old? = some old → old.kind = kind) →
      ((old?.map TypeEntry.directives).getD .empty).HasKeys keys →
      (((xs.foldl (grown setting) old?).map TypeEntry.directives).getD .empty).HasKeys
        (keys ++ keysAmong (xs.flatMap (·.type.directives))) := by
    induction xs with
    | nil => exact fun _ keys _ before => (List.append_nil keys).symm ▸ before
    | cons x rest ih =>
      intro old? keys known before
      obtain ⟨kindX, sameKind⟩ := List.forall_mem_cons.mp sameKind
      obtain ⟨allowedX, allowed⟩ := List.forall_mem_cons.mp allowed
      obtain ⟨entry, grew, kindE, kept⟩ :=
        hasKeys_grown (fun old there => (known old there).trans kindX.symm) before allowedX
      have split : keysAmong ((x :: rest).flatMap (·.type.directives)) =
          keysAmong x.type.directives ++ keysAmong (rest.flatMap (·.type.directives)) :=
        List.filter_append ..
      rw [List.foldl_cons, grew, split, ← List.append_assoc]
      refine ih sameKind allowed (some entry) _ (fun old there => ?_) kept
      exact Option.some.inj there ▸ kindE.trans kindX
  exact fold none [] nofun ⟨by simp [Table.contains, Table.keys], rfl⟩

end TypeEntry

theorem definitions_eq_map_sightings (statements : List Statement) (typeName : String) :
    definitions statements typeName = (Sighting.all statements typeName).map Sighting.type := by
  unfold definitions Sighting.all
  induction statements with
  | nil => rfl
  | cons x rest ih =>
    rw [List.filterMap_cons, List.filterMap_cons]
    rcases x with (_ | _ | t) | _ | t
    case define.type | extendType =>
      dsimp only [Statement.type?, Statement.sighting?]
      rw [List.filter_cons]
      split <;> simp [ih]
    all_goals exact ih

/-- The keys that the definitions and extensions of a type declare, in their order. -/
def declaredKeys (statements : List Statement) (typeName : String) : List Directive :=
  keysAmong ((definitions statements typeName).flatMap TypeDefinition.directives)

namespace Assembly

/-- In a valid subgraph a type keeps the keys of all its definitions and extensions. -/
theorem hasKeys_applied {subgraph : String} {maxOrScopes : Nat} {statements : List Statement}
    (v : (Assembly.of subgraph maxOrScopes statements).Valid statements) (typeName : String) :
    ((Assembly.of subgraph maxOrScopes statements).types.applied typeName).HasKeys
      (declaredKeys statements typeName) := by
  have looked : ∀ x ∈ Sighting.all statements typeName,
      ∃ isExtension, .type isExtension x.type ∈ Look.all statements ∧ x.type.name = typeName := by
    intro x sighted
    have defined : x.type ∈ definitions statements typeName :=
      definitions_eq_map_sightings statements typeName ▸ List.mem_map_of_mem sighted
    obtain ⟨⟨isExtension, looked⟩, here⟩ := mem_definitions.mp defined
    exact ⟨isExtension, looked, here⟩
  have registered : ∀ x ∈ Sighting.all statements typeName,
      (Assembly.of subgraph maxOrScopes statements).types.kind? typeName = some x.type.kind := by
    intro x sighted
    obtain ⟨isExtension, looked, here⟩ := looked x sighted
    exact here ▸ v.coherent.registered isExtension x.type looked
  have allowed : ∀ x ∈ Sighting.all statements typeName, ∀ d ∈ x.type.directives,
      (Assembly.of subgraph maxOrScopes statements).setting.Allows x.type.kind.location d := by
    intro x sighted
    obtain ⟨isExtension, looked, -⟩ := looked x sighted
    exact v.coherent.allowedOnType isExtension x.type looked
  -- All sightings have the registered kind, and without any the kind does not matter.
  obtain ⟨kind, sameKind⟩ : ∃ kind, ∀ x ∈ Sighting.all statements typeName, x.type.kind = kind := by
    cases known : (Assembly.of subgraph maxOrScopes statements).types.kind? typeName with
    | none => exact ⟨.object, fun x sighted => absurd (known.symm.trans (registered x sighted)) nofun⟩
    | some kind => exact ⟨kind, fun x sighted => Option.some.inj ((registered x sighted).symm.trans known)⟩
  have kept := TypeEntry.hasKeys_ofSightings sameKind allowed
  have all : (Sighting.all statements typeName).flatMap (·.type.directives) =
      (definitions statements typeName).flatMap TypeDefinition.directives := by
    rw [definitions_eq_map_sightings, List.flatMap_map]
  have walked : (Assembly.of subgraph maxOrScopes statements).types.get? typeName = _ :=
    Survey.get?_walk _ _ statements typeName
  rw [Registry.applied, walked, declaredKeys, ← all]
  exact kept

end Assembly

end Federation
