import Federation.Proofs.Normalization.Extension

/-!
# Fields that are declared again

The alternatives of all sightings of a field stand side by side in its requirement. What one of them declares
is therefore asked of every client only where the alternatives of the others come up to it.
-/

namespace Federation

open Schema
open Authorization

namespace Authorization

/-- Who holds an alternative, beside what the rest asks for, holds one of the given alternatives too. -/
def ComesUpTo (alternative : NameSet) (alternatives : List NameSet) (rest : List Requirement) : Prop :=
  ∀ who : Credential, (∀ r ∈ rest, who.Satisfies r) →
    ∃ own ∈ alternatives, ∀ scope ∈ own.toList, scope ∈ alternative.toList ∨ who.holds scope = true

/-- Gathered with others, a requirement is asked of all who meet the rest just where every alternative
comes up to its own. -/
theorem gathered_kept_iff (rest : List Requirement) {rs : List Requirement} {own : Requirement}
    (member : own ∈ rs) :
    (∀ who : Credential, who.Satisfies (.gathered rs) ∧ (∀ r ∈ rest, who.Satisfies r) → who.Satisfies own) ↔
      own.scopes = [] ∨
        ∀ other ∈ rs, ∀ alternative ∈ other.scopes, ComesUpTo alternative own.scopes rest := by
  constructor
  -- Who meets the rest and holds one alternative beside is let in, so the own requirement has to be met.
  · intro asked
    refine or_iff_not_imp_left.mpr fun some other listed alternative inside who meets => ?_
    have joined : (who.withScopes alternative).Satisfies (.gathered rs) := by
      refine ⟨fun _ => rfl, Or.inr ⟨alternative, ?_, who.covers_withScopes alternative⟩⟩
      exact List.mem_flatMap.mpr ⟨other, listed, inside⟩
    have met := asked (who.withScopes alternative)
      ⟨joined, fun r member => who.satisfies_mono alternative r (meets r member)⟩
    obtain ⟨kept, inside, covered⟩ := met.2.resolve_left some
    refine ⟨kept, inside, fun scope held => ?_⟩
    have holds := covered scope held
    simpa [Credential.withScopes, OrderedSet.contains_iff] using holds
  · rintro comesUp who ⟨joined, meets⟩
    refine ⟨fun authenticated => joined.1 (List.any_eq_true.mpr ⟨own, member, authenticated⟩), ?_⟩
    rcases comesUp with nothing | comesUp
    · exact Or.inl nothing
    · rcases joined.2 with none | ⟨alternative, inside, covered⟩
      · exact Or.inl (List.flatMap_eq_nil_iff.mp none own member)
      · obtain ⟨other, listed, inside⟩ := List.mem_flatMap.mp inside
        obtain ⟨kept, chosen, within⟩ := comesUp other listed alternative inside who meets
        refine Or.inr ⟨kept, chosen, fun scope held => ?_⟩
        exact (within scope held).elim (covered scope) id

/-- More requirements that are gathered let in nobody new just where their alternatives come up to those that
there were. -/
theorem gathered_append_iff (rest rs added : List Requirement) :
    (∀ who : Credential, who.Satisfies (.gathered (rs ++ added)) ∧ (∀ r ∈ rest, who.Satisfies r) →
        who.Satisfies (.gathered rs)) ↔
      (Requirement.gathered rs).scopes = [] ∨
        ∀ other ∈ added, ∀ alternative ∈ other.scopes,
          ComesUpTo alternative (Requirement.gathered rs).scopes rest := by
  -- The old requirements count as one, whose own alternatives come up to themselves.
  have one : Requirement.gathered (rs ++ added) = .gathered (.gathered rs :: added) := by
    simp [Requirement.gathered]
  rw [one, gathered_kept_iff rest List.mem_cons_self]
  refine or_congr_right ?_
  rw [List.forall_mem_cons]
  refine and_iff_right fun alternative inside who _ => ?_
  exact ⟨alternative, inside, fun scope held => Or.inl held⟩

end Authorization

namespace Assembly.Valid

variable {a : Assembly} {statements : List Statement} {typeName name : String}

theorem satisfies_recordedAt (v : a.Valid statements) (known : (a.types.field? typeName name).isSome = true)
    (who : Credential) :
    who.Satisfies (a.result.recordedAt (.field typeName name)) ↔
      who.Satisfies (a.declaredOnField typeName name) ∧ ∀ r ∈ a.inherited typeName name, who.Satisfies r :=
  (v.satisfies_fieldAt known who).trans List.forall_mem_cons

theorem sighting_kept (v : a.Valid statements) (known : (a.types.field? typeName name).isSome = true)
    {f : FieldDefinition} (sighted : f ∈ sightings statements typeName name)
    (once : f.directives.countP (·.name = Vocabulary.authenticated) ≤ 1)
    (single : f.directives.countP (·.name = Vocabulary.requiresScopes) ≤ 1) (nested : AllNested f.directives) :
    (∀ who : Credential,
        who.Satisfies (a.result.recordedAt (.field typeName name)) → who.Satisfies (.said f.directives)) ↔
      (Requirement.said f.directives).scopes = [] ∨
        ∀ other ∈ sightings statements typeName name,
          ∀ alternative ∈ (Declared.on a.setting.maxOrScopes other.directives).asked.scopes,
            ComesUpTo alternative (Requirement.said f.directives).scopes (a.inherited typeName name) := by
  obtain ⟨inOrder, within⟩ := v.of_block (.field typeName name) known (List.mem_map.mpr ⟨f, sighted, rfl⟩)
  have said := (asked_on a.setting.maxOrScopes inOrder within once single).1 nested
  have member : Requirement.said f.directives ∈ (sightings statements typeName name).map fun f =>
      (Declared.on a.setting.maxOrScopes f.directives).asked :=
    List.mem_map.mpr ⟨f, sighted, said⟩
  have kept := gathered_kept_iff (a.inherited typeName name) member
  rw [List.forall_mem_map, ← v.declaredOnField_eq known] at kept
  rw [← kept]
  exact forall_congr' fun who => imp_congr_left (v.satisfies_recordedAt known who)

theorem extension_kept {a' : Assembly} {t : TypeDefinition} (v : a.Valid statements)
    (v' : a'.Valid (statements ++ [.extendType t])) (roots : a'.setting.roots = a.setting.roots)
    (limit : a'.setting.maxOrScopes = a.setting.maxOrScopes)
    (known : (a.types.field? t.name name).isSome = true)
    (plain : ∀ d ∈ t.directives, d.isAuthorization = false) :
    (∀ who : Credential,
        who.Satisfies (a'.result.recordedAt (.field t.name name)) →
          who.Satisfies (a.result.recordedAt (.field t.name name))) ↔
      (a.declaredOnField t.name name).scopes = [] ∨
        ∀ f ∈ sightings [.extendType t] t.name name,
          ∀ alternative ∈ (Declared.on a.setting.maxOrScopes f.directives).asked.scopes,
            ComesUpTo alternative (a.declaredOnField t.name name).scopes (a'.inherited t.name name) := by
  -- The field stays registered by the sighting that it had.
  have known' : (a'.types.field? t.name name).isSome = true := by
    obtain ⟨t₀, defined, f₀, inside, here, unserved⟩ := v.field?_isSome_iff.mp known
    refine v'.field?_isSome_iff.mpr ⟨t₀, mem_definitions_extend defined, f₀, inside, here, ?_⟩
    rwa [Look.isServed, Setting.operation?, roots]
  obtain ⟨entry, c, found, -⟩ := exists_of_field? known
  have inherited := inherited_subset_extend v v' roots limit (Table.mem_keys_of_get? found) plain known known'
  have declared := v.declaredOnField_eq known
  have declared' := v'.declaredOnField_eq known'
  rw [sightings_append, List.map_append, limit] at declared'
  have kept := gathered_append_iff (a'.inherited t.name name)
    ((sightings statements t.name name).map fun f => (Declared.on a.setting.maxOrScopes f.directives).asked)
    ((sightings [.extendType t] t.name name).map fun f => (Declared.on a.setting.maxOrScopes f.directives).asked)
  rw [← declared, ← declared', List.forall_mem_map] at kept
  rw [← kept]
  refine forall_congr' fun who => ?_
  rw [v.satisfies_recordedAt known, v'.satisfies_recordedAt known']
  constructor
  · exact fun old met => (old met).1
  · exact fun old met => ⟨old met, fun r member => met.2 r (inherited member)⟩

end Assembly.Valid

/-- What one sighting of a field declares is asked of every client who meets the recorded requirement just
where each alternative of each sighting comes up to its own, beside what the field inherits. An extension that
declares the field again, and no requirement of the type, lets in nobody whom the subgraph without it refuses
just where the alternatives that it adds come up to those that there were. -/
theorem sighting_kept_iff {options : NormalizationOptions} {statements : List Statement} {n : NormalSubgraph}
    (valid : (normalize options statements).result? = some n) {typeName name : String}
    (known : (n.types.field? typeName name).isSome = true) :
    let a := Assembly.of options.subgraph options.maxOrScopes statements
    let asked (f : FieldDefinition) := (Declared.on options.maxOrScopes f.directives).asked
    (∀ f ∈ sightings statements typeName name,
      f.directives.countP (·.name = Vocabulary.authenticated) ≤ 1 →
      f.directives.countP (·.name = Vocabulary.requiresScopes) ≤ 1 → AllNested f.directives →
      ((∀ who : Credential,
          who.Satisfies (n.recordedAt (.field typeName name)) → who.Satisfies (.said f.directives)) ↔
        (Requirement.said f.directives).scopes = [] ∨
          ∀ other ∈ sightings statements typeName name, ∀ alternative ∈ (asked other).scopes,
            ComesUpTo alternative (Requirement.said f.directives).scopes (a.inherited typeName name))) ∧
    ∀ (t : TypeDefinition) (n' : NormalSubgraph), t.name = typeName →
      (∀ d ∈ t.directives, d.isAuthorization = false) →
      (normalize options (statements ++ [.extendType t])).result? = some n' →
      let a' := Assembly.of options.subgraph options.maxOrScopes (statements ++ [.extendType t])
      ((∀ who : Credential,
          who.Satisfies (n'.recordedAt (.field typeName name)) →
            who.Satisfies (n.recordedAt (.field typeName name))) ↔
        (a.declaredOnField typeName name).scopes = [] ∨
          ∀ f ∈ sightings [.extendType t] typeName name, ∀ alternative ∈ (asked f).scopes,
            ComesUpTo alternative (a.declaredOnField typeName name).scopes (a'.inherited typeName name)) := by
  obtain ⟨clean, rfl⟩ := result_of_normalize valid
  have v := Assembly.valid_of options.subgraph options.maxOrScopes statements clean
  have limit := Assembly.maxOrScopes_of options.subgraph options.maxOrScopes statements
  have roots := Assembly.roots_extend options.subgraph options.maxOrScopes statements
  generalize Assembly.of options.subgraph options.maxOrScopes statements = a at *
  constructor
  · intro f sighted once single nested
    have kept := v.sighting_kept known sighted once single nested
    rwa [limit] at kept
  · intro t n' same plain valid'
    obtain ⟨clean', rfl⟩ := result_of_normalize valid'
    have v' := Assembly.valid_of _ _ _ clean'
    have limit' := Assembly.maxOrScopes_of options.subgraph options.maxOrScopes (statements ++ [.extendType t])
    subst same
    have kept := v.extension_kept v' (roots t) (limit'.trans limit.symm) known plain
    rwa [limit] at kept

/-- A field of the query that one scope opens, declared with a list of alternatives. -/
def secretField (alternatives : List (List String)) : FieldDefinition :=
  ⟨"secret", none, [], .named "String" false,
    Requirement.directives ⟨false, alternatives.map OrderedSet.ofList⟩⟩

def secretQuery (alternatives : List (List String)) : TypeDefinition :=
  ⟨"Query", none, [], .object [] [secretField alternatives]⟩

/-- An extension that asks for more keeps what the definition asks for, and lets in nobody new. -/
theorem secret_kept : ∃ n n',
    (normalize .default [.define (.type (secretQuery [["a"]]))]).result? = some n ∧
    (normalize .default [.define (.type (secretQuery [["a"]])), .extendType (secretQuery [["a", "b"]])]).result? =
      some n' ∧
    (∀ who : Credential, who.Satisfies (n'.recordedAt (.field "Query" "secret")) →
      who.Satisfies (.said (secretField [["a"]]).directives)) ∧
    ∀ who : Credential, who.Satisfies (n'.recordedAt (.field "Query" "secret")) →
      who.Satisfies (n.recordedAt (.field "Query" "secret")) := by
  let definition : Statement := .define (.type (secretQuery [["a"]]))
  let extension := secretQuery [["a", "b"]]
  obtain ⟨n, valid⟩ := Option.isSome_iff_exists.mp
    (by decide +kernel : (normalize .default [definition]).result?.isSome = true)
  obtain ⟨n', valid'⟩ := Option.isSome_iff_exists.mp
    (by decide +kernel : (normalize .default [definition, .extendType extension]).result?.isSome = true)
  have known : ((normalize .default [definition]).result?.any fun n =>
      (n.types.field? "Query" "secret").isSome) = true := by
    decide +kernel
  have known' : ((normalize .default [definition, .extendType extension]).result?.any fun n =>
      (n.types.field? "Query" "secret").isSome) = true := by
    decide +kernel
  rw [valid, Option.any_some] at known
  rw [valid', Option.any_some] at known'
  refine ⟨n, n', valid, valid', ?_, ?_⟩
  · have kept := (sighting_kept_iff valid' known').1 (secretField [["a"]]) List.mem_cons_self (by decide)
      (by decide) (allNested_directives _)
    -- Each sighting asks for the scope by itself, so nothing is left to what the field inherits.
    have within : ∀ other ∈ sightings [definition, .extendType extension] "Query" "secret",
        ∀ alternative ∈ (Declared.on defaultMaxOrScopes other.directives).asked.scopes,
          ∃ kept ∈ (Requirement.said (secretField [["a"]]).directives).scopes,
            ∀ scope ∈ kept.toList, scope ∈ alternative.toList := by
      decide +kernel
    refine kept.mpr (Or.inr fun other sighted alternative inside who _ => ?_)
    obtain ⟨own, chosen, covered⟩ := within other sighted alternative inside
    exact ⟨own, chosen, fun scope held => Or.inl (covered scope held)⟩
  · have kept := (sighting_kept_iff valid known).2 extension n' rfl nofun valid'
    have within : ∀ f ∈ sightings [.extendType extension] "Query" "secret",
        ∀ alternative ∈ (Declared.on defaultMaxOrScopes f.directives).asked.scopes,
          ∃ kept ∈ ((Assembly.of NormalizationOptions.default.subgraph defaultMaxOrScopes
              [definition]).declaredOnField "Query" "secret").scopes,
            ∀ scope ∈ kept.toList, scope ∈ alternative.toList := by
      decide +kernel
    refine kept.mpr (Or.inr fun f sighted alternative inside who _ => ?_)
    obtain ⟨own, chosen, covered⟩ := within f sighted alternative inside
    exact ⟨own, chosen, fun scope held => Or.inl (covered scope held)⟩

/-- An extension with a scope of its own opens the field to a client that the definition refuses. -/
theorem secret_opened :
    ∃ n₀ n : NormalSubgraph, ∃ who : Credential,
      (normalize .default [.define (.type (secretQuery [["a"]]))]).result? = some n₀ ∧
      (normalize .default [.define (.type (secretQuery [["a"]])), .extendType (secretQuery [["b"]])]).result? =
        some n ∧
      who.Satisfies (n.recordedAt (.field "Query" "secret")) ∧
      ¬ who.Satisfies (n₀.recordedAt (.field "Query" "secret")) ∧
      ¬ who.Satisfies (.said (secretField [["a"]]).directives) := by
  let who : Credential := ⟨true, (· = "b")⟩
  have alone : ((normalize .default [.define (.type (secretQuery [["a"]]))]).result?.any fun n =>
      ¬ who.Satisfies (n.recordedAt (.field "Query" "secret"))) = true := by
    decide +kernel
  have extended : ((normalize .default
      [.define (.type (secretQuery [["a"]])), .extendType (secretQuery [["b"]])]).result?.any fun n =>
        who.Satisfies (n.recordedAt (.field "Query" "secret"))) = true := by
    decide +kernel
  simp only [Option.any_eq_true, decide_eq_true_eq] at alone extended
  obtain ⟨n₀, valid₀, refused⟩ := alone
  obtain ⟨n, valid, accepted⟩ := extended
  exact ⟨n₀, n, who, valid₀, valid, accepted, refused, by decide⟩

end Federation
