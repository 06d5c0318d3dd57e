import Federation.Proofs.Normalization.Root
import Federation.Proofs.Survey.Event

/-!
# Events of a type as the router sees them

What a router is told of the events of a type comes from the first sighting of each of its fields, whether it is a root
type or not. The registry has the event directives of all sightings. The two agree on a root type where no later
sighting has an event directive, and a type that is no root type has no events where none of its fields starts with one.
-/

namespace Federation

open Schema

/-- The bindings that the event directives on the fields of a type declare. -/
def Composite.declaredBindings (c : Composite) : List Event.Binding :=
  c.fields.toList.flatMap fun e => (Event.directives e.2.directives).map (Event.declaredBinding e.1)

namespace NormalSubgraph

/-- The events of the type with a canonical name, as a router is told of them. -/
def eventsOf (n : NormalSubgraph) (canonicalName : String) : List Event.Binding :=
  ((n.configuration.get? canonicalName).map Router.Configuration.events).getD []

/-- The sightings of a field that its bindings are read from: the first one, where the router is told of the type. -/
def boundSightings (n : NormalSubgraph) (statements : List Statement) (typeName name : String) :
    List FieldDefinition :=
  if n.IsSupportType typeName then [] else (sightings statements typeName name).take 1

/-- The sightings of a field that nothing is bound from. -/
def unboundSightings (n : NormalSubgraph) (statements : List Statement) (typeName name : String) :
    List FieldDefinition :=
  if n.IsSupportType typeName then sightings statements typeName name else (sightings statements typeName name).drop 1

end NormalSubgraph

/-- What is appended to each part of a list is noticed. -/
theorem perm_flatMap_append_iff {α β : Type} {f g : α → List β} {xs : List α} :
    (xs.flatMap f).Perm (xs.flatMap fun x => f x ++ g x) ↔ ∀ x ∈ xs, g x = [] := by
  have apart := List.flatMap_append_perm xs f g
  constructor
  · intro same
    have lengths := (same.trans apart.symm).length_eq
    rw [List.length_append] at lengths
    exact List.flatMap_eq_nil_iff.mp (List.length_eq_zero_iff.mp (by omega))
  · intro nothing
    rw [List.flatMap_eq_nil_iff.mpr nothing, List.append_nil] at apart
    exact apart

namespace Assembly.Valid

variable {a : Assembly} {statements : List Statement}

theorem sightings_eq (v : a.Valid statements) {typeName name : String}
    (known : (a.types.field? typeName name).isSome = true) :
    Look.sightings a.setting typeName name (Look.all statements) = sightings statements typeName name := by
  unfold sightings Look.sightings
  rw [flatMap_definitions]
  refine flatMap_looks (fun _ => rfl) (fun _ _ _ => rfl) (fun _ _ _ => rfl) statements _ fun isExtension t looked => ?_
  have registered : a.types.kind? t.name = some t.kind := v.coherent.registered isExtension t looked
  rw [Look.sighted, List.nil_append]
  split
  · next same =>
    -- The field is registered, so a federation does not serve it by itself.
    have unserved : ∀ f : FieldDefinition, f.name = name → Look.isServed a.setting t f = false :=
      fun f here => v.not_isServed known (same ▸ registered) same here
    rw [← List.flatMap_singleton' (List.filter _ _), flatMap_filter]
    refine List.flatMap_congr fun f _ => ?_
    by_cases here : f.name = name
    · simp [Look.sighted, same, here, unserved f here]
    · simp [Look.sighted, here]
  · next other => exact List.flatMap_eq_nil_iff.mpr fun f _ => by simp [Look.sighted, other]

end Assembly.Valid

namespace Assembly

variable {subgraph : String} {maxOrScopes : Nat} {statements : List Statement} {typeName : String}

theorem recordsEvents_of (clean : (Assembly.of subgraph maxOrScopes statements).errors = [])
    (registered : typeName ∈ (Assembly.of subgraph maxOrScopes statements).types.keys) :
    Survey.RecordsEvents (Assembly.of subgraph maxOrScopes statements).setting typeName (Look.all statements)
      (Assembly.of subgraph maxOrScopes statements).survey := by
  have v := Assembly.valid_of subgraph maxOrScopes statements clean
  simp only [errors, List.append_eq_nil_iff] at clean
  obtain ⟨⟨⟨⟨⟨⟨⟨⟨⟨survey, -⟩, -⟩, -⟩, -⟩, -⟩, -⟩, -⟩, -⟩, -⟩ := clean
  refine Survey.recordsEvents_walk survey fun isExtension t f looked same => ?_
  have known := v.coherent.registered isExtension t (Look.mem_all_field.mp looked).1
  exact v.canonicalName_injective (mem_keys_of_kind? known) registered same

end Assembly

section Normal

variable {options : NormalizationOptions} {statements : List Statement} {n : NormalSubgraph}
  (valid : (normalize options statements).result? = some n) {typeName : String} {entry : TypeEntry} {c : Composite}
  (registered : n.types.get? typeName = some entry) (composite : entry.composite? = some c)

include valid registered composite

/-- The registry keeps the event directives of all sightings of a field. -/
theorem declaredBindings_eq : c.declaredBindings = c.fields.keys.flatMap fun name =>
    ((sightings statements typeName name).flatMap FieldDefinition.events).map (Event.declaredBinding name) := by
  obtain ⟨clean, rfl⟩ := result_of_normalize valid
  have v := Assembly.valid_of options.subgraph options.maxOrScopes statements clean
  have recorded := Assembly.recordsEvents_of clean (Table.mem_keys_of_get? registered)
  have fields := Registry.fields_eq registered composite
  unfold Composite.declaredBindings
  rw [Table.keys, List.flatMap_map]
  apply List.flatMap_congr
  rintro ⟨name, field⟩ member
  have known : (Assembly.of options.subgraph options.maxOrScopes statements).types.field? typeName name =
      some field := by
    rw [Registry.field?_eq]
    exact (congrArg (Table.get? · name) fields).trans (Table.mem_toList.mp member)
  rw [recorded.directives name field known, v.sightings_eq (Option.isSome_of_eq_some known)]

/-- A router is told of the events that the first sightings of the fields declare. -/
theorem eventsOf_eq : n.eventsOf (n.roots.canonicalName typeName) = c.fields.keys.flatMap fun name =>
    ((n.boundSightings statements typeName name).flatMap FieldDefinition.events).map (Event.declaredBinding name) := by
  obtain ⟨clean, rfl⟩ := result_of_normalize valid
  have v := Assembly.valid_of options.subgraph options.maxOrScopes statements clean
  have recorded := Assembly.recordsEvents_of clean (Table.mem_keys_of_get? registered)
  have fields := Registry.fields_eq registered composite
  generalize same : Assembly.of options.subgraph options.maxOrScopes statements = a at *
  have found : a.result.configuration.get? (a.setting.roots.canonicalName typeName) = _ :=
    v.get?_configuration_canonicalName registered composite
  unfold NormalSubgraph.eventsOf NormalSubgraph.boundSightings
  change ((a.result.configuration.get? (a.setting.roots.canonicalName typeName)).map _).getD [] = _
  rw [found]
  by_cases left : a.result.IsSupportType typeName
  · -- The router is not told of this type.
    rw [if_pos (Assembly.isSupportType_iff.mpr left)]
    simp [left]
  · rw [if_neg (left ∘ Assembly.isSupportType_iff.mp)]
    refine recorded.bindings.trans ?_
    have keys : a.survey.types.fields typeName = c.fields := fields
    rw [keys]
    refine List.flatMap_congr fun name listed => ?_
    have known : (a.types.field? typeName name).isSome = true := by
      rw [Registry.field?_eq, Table.get?_isSome_iff]
      exact keys.symm ▸ listed
    rw [if_neg left, v.sightings_eq known]

/-- No event of a root type is lost just where no later sighting of its fields has an event directive, and no event is
made up for another type just where no first sighting has one. -/
theorem eventsOf_perm_iff :
    (n.roots.isRootName typeName = true →
      ((n.eventsOf (n.roots.canonicalName typeName)).Perm c.declaredBindings ↔
        ∀ name ∈ c.fields.keys, ∀ f ∈ n.unboundSightings statements typeName name, f.events = [])) ∧
    (n.roots.isRootName typeName = false →
      (n.eventsOf (n.roots.canonicalName typeName) = [] ↔
        ∀ name ∈ c.fields.keys, ∀ f ∈ n.boundSightings statements typeName name, f.events = [])) := by
  rw [eventsOf_eq valid registered composite, declaredBindings_eq valid registered composite]
  refine ⟨fun _ => ?_, fun _ => ?_⟩
  -- The sightings that are not bound make the difference between the two lists.
  · have parts : ∀ name, sightings statements typeName name =
        n.boundSightings statements typeName name ++ n.unboundSightings statements typeName name := fun name => by
      unfold NormalSubgraph.boundSightings NormalSubgraph.unboundSightings
      split
      · rfl
      · exact (List.take_append_drop 1 _).symm
    simp only [parts, List.flatMap_append, List.map_append]
    rw [perm_flatMap_append_iff]
    simp only [List.map_eq_nil_iff, List.flatMap_eq_nil_iff]
  · simp only [List.flatMap_eq_nil_iff, List.map_eq_nil_iff]

end Normal

/-- A request to a message broker under a subject. -/
def natsRequest (subject : String) : Directive := ⟨Vocabulary.natsRequest, [(Vocabulary.subject, .string subject)]⟩

/-- Queries for an entity, with directives on their only field. -/
def entityQuery (directives : List Directive) : TypeDefinition :=
  ⟨"Query", none, [], .object [] [⟨"e", none, [], .named "E" true, directives⟩]⟩

/-- An entity whose key belongs to another subgraph, with further directives on the field of the key. -/
def entityType (directives : List Directive) : TypeDefinition :=
  ⟨"E", none, [⟨Vocabulary.key, [(Vocabulary.fields, .string "id")]⟩],
    .object [] [⟨"id", none, [], .named "ID" true, ⟨Vocabulary.external, []⟩ :: directives⟩]⟩

/-- Where the directive stands on the first sighting of the root field, its event is there and no other. -/
theorem eventsOf_perm_request : ∃ (n : NormalSubgraph) (entry entry' : TypeEntry) (c c' : Composite),
    (normalize .default [.define (.type (entityQuery [natsRequest "s"])), .define (.type (entityType []))]).result? =
      some n ∧
    n.types.get? "Query" = some entry ∧ entry.composite? = some c ∧
    n.types.get? "E" = some entry' ∧ entry'.composite? = some c' ∧
    (n.eventsOf (n.roots.canonicalName "Query")).Perm c.declaredBindings ∧
    n.eventsOf (n.roots.canonicalName "E") = [] := by
  let statements : List Statement :=
    [.define (.type (entityQuery [natsRequest "s"])), .define (.type (entityType []))]
  have checked : (normalize .default statements).result?.any (fun n =>
      (n.types.get? "Query").any (fun entry => entry.composite?.any fun c => n.roots.isRootName "Query" &&
        c.fields.keys.all fun name => (n.unboundSightings statements "Query" name).all (·.events.isEmpty)) &&
      (n.types.get? "E").any (fun entry => entry.composite?.any fun c => !n.roots.isRootName "E" &&
        c.fields.keys.all fun name => (n.boundSightings statements "E" name).all (·.events.isEmpty))) = true := by
    decide +kernel
  simp only [Option.any_eq_true, Bool.and_eq_true, Bool.not_eq_true', List.all_eq_true, List.isEmpty_iff] at checked
  obtain ⟨n, valid, ⟨entry, registered, c, composite, root, later⟩, entry', registered', c', composite', other,
    first⟩ := checked
  exact ⟨n, entry, entry', c, c', valid, registered, composite, registered', composite',
    ((eventsOf_perm_iff valid registered composite).1 root).mpr later,
    ((eventsOf_perm_iff valid registered' composite').2 other).mpr first⟩

/-- Where an extension adds the directive to a root field, its event is lost. On a field of an entity a directive makes
an event, although the entity is no root type. -/
theorem eventsOf_not_perm_extension :
    (∃ n c, (normalize .default [.define (.type (entityQuery [])), .extendType (entityQuery [natsRequest "s"]),
        .define (.type (entityType []))]).result? = some n ∧ n.roots.isRootName "Query" = true ∧
      n.types.composite? "Query" = some c ∧ c.declaredBindings = [⟨"e", "default", .nats, .request, ["s"], none⟩] ∧
      n.eventsOf (n.roots.canonicalName "Query") = []) ∧
    ∃ n, (normalize .default [.define (.type (entityQuery [natsRequest "s"])),
        .define (.type (entityType [natsRequest "x"]))]).result? = some n ∧ n.roots.isRootName "E" = false ∧
      n.eventsOf (n.roots.canonicalName "E") = [⟨"id", "default", .nats, .request, ["x"], none⟩] := by
  have lost : (normalize .default [.define (.type (entityQuery [])), .extendType (entityQuery [natsRequest "s"]),
      .define (.type (entityType []))]).result?.any (fun n => n.roots.isRootName "Query" &&
        (n.types.composite? "Query").any fun c =>
          c.declaredBindings = [⟨"e", "default", .nats, .request, ["s"], none⟩] &&
            n.eventsOf (n.roots.canonicalName "Query") = []) = true := by
    decide +kernel
  have invented : (normalize .default [.define (.type (entityQuery [natsRequest "s"])),
      .define (.type (entityType [natsRequest "x"]))]).result?.any (fun n => !n.roots.isRootName "E" &&
        n.eventsOf (n.roots.canonicalName "E") = [⟨"id", "default", .nats, .request, ["x"], none⟩]) = true := by
    decide +kernel
  simp only [Option.any_eq_true, Bool.and_eq_true, Bool.not_eq_true', decide_eq_true_eq] at lost invented
  obtain ⟨n, valid, root, c, composite, declared, nothing⟩ := lost
  exact ⟨⟨n, c, valid, root, composite, declared, nothing⟩, invented⟩

end Federation
