import Federation.Proofs.Authorization.Contribution

/-!
# Inherited requirements

What is recorded for a field of a valid subgraph is the conjunction of all that the field inherits, each part
of it once.
-/

namespace Federation

open Schema
open Authorization

namespace Assembly

theorem Valid.requiredByLeaf_of_field? {a : Assembly} {statements : List Statement} (v : a.Valid statements)
    {typeName name : String} {field : Field} (known : a.types.field? typeName name = some field)
    (who : Credential) :
    who.Satisfies (a.requiredByLeaf typeName name) ↔
      ∀ kind, a.types.kind? field.type.namedType = some kind → kind.isLeaf = true →
        who.Satisfies (a.ledger.records.typeAt field.type.namedType) := by
  unfold requiredByLeaf
  simp only [known]
  cases named : a.types.kind? field.type.namedType with
  | none => simp [who.satisfies_none]
  | some kind =>
    simp only [Option.any_some, Option.some.injEq, forall_eq']
    by_cases leaf : kind.isLeaf = true
    · simp [leaf, v.typeAt_leaf named leaf]
    · simp [leaf, who.satisfies_none]

theorem satisfies_interfacesOver (a : Assembly) (who : Credential) (typeName name : String) :
    (∀ r ∈ (a.interfacesOver typeName name).flatMap fun i => [a.declaredOnField i name, a.requiredByType i],
        who.Satisfies r) ↔
      ∀ i ∈ a.types.implemented typeName, a.covers i = true → (a.types.field? i name).isSome = true →
        who.Satisfies (a.declaredOnField i name) ∧ who.Satisfies (a.requiredByType i) := by
  constructor
  · intro all i implemented covers inside
    have member := Valid.mem_interfacesOver.mpr ⟨implemented, covers, inside⟩
    exact ⟨all _ (List.mem_flatMap.mpr ⟨i, member, List.mem_cons_self⟩),
      all _ (List.mem_flatMap.mpr ⟨i, member, List.mem_cons_of_mem _ List.mem_cons_self⟩)⟩
  · intro each r member
    obtain ⟨i, inside, listed⟩ := List.mem_flatMap.mp member
    obtain ⟨implemented, covers, known⟩ := Valid.mem_interfacesOver.mp inside
    have both := each i implemented covers known
    rcases List.mem_cons.mp listed with rfl | listed
    · exact both.1
    · exact List.mem_singleton.mp listed ▸ both.2

end Assembly

/-- A client meets the requirement that is recorded for a field just where it meets what is declared on the
field, what its type requires, what each interface over it declares and requires, and what the enum or scalar
that it names requires. Of these none is left out and none joined twice, so the alternatives multiply. -/
theorem satisfies_recorded {options : NormalizationOptions} {statements : List Statement} {n : NormalSubgraph}
    (valid : (normalize options statements).result? = some n) {typeName name : String} {field : Field}
    (known : n.types.field? typeName name = some field) (own : n.roots.canonicalName typeName = typeName) :
    let a := Assembly.of options.subgraph options.maxOrScopes statements
    (∀ who : Credential, who.Satisfies (n.authorization.fieldAt typeName name) ↔
      who.Satisfies (a.declaredOnField typeName name) ∧
      who.Satisfies (a.requiredByType typeName) ∧
      (∀ i ∈ n.types.implemented typeName, a.covers i = true → (n.types.field? i name).isSome = true →
        who.Satisfies (a.declaredOnField i name) ∧ who.Satisfies (a.requiredByType i)) ∧
      ∀ kind, n.types.kind? field.type.namedType = some kind → kind.isLeaf = true →
        who.Satisfies (n.authorization.typeAt field.type.namedType)) ∧
    (n.authorization.fieldAt typeName name).scopes.length =
      Requirement.alternatives (a.contributions typeName name) ∧
    n.authorization.typeAt typeName = a.requiredByType typeName := by
  intro a
  obtain ⟨clean, rfl⟩ := result_of_normalize valid
  have v := Assembly.valid_of options.subgraph options.maxOrScopes statements clean
  change a.types.field? typeName name = some field at known
  change a.setting.roots.canonicalName typeName = typeName at own
  have here : (a.types.field? typeName name).isSome = true := known ▸ rfl
  have length := v.length_fieldAt here
  rw [own] at length
  refine ⟨fun who => ?_, length, ?_⟩
  · have satisfied := v.satisfies_fieldAt here who
    rw [own] at satisfied
    refine satisfied.trans ?_
    have leaf := v.requiredByLeaf_of_field? known who
    -- Under its own name a type takes over what interfaces ask, so that no case is left.
    have parts : a.contributions typeName name = a.declaredOnField typeName name :: ([a.requiredByType typeName] ++
        ((a.interfacesOver typeName name).flatMap fun i =>
          [a.declaredOnField i name, a.requiredByType i]) ++ [a.requiredByLeaf typeName name]) := by
      rw [Assembly.contributions, Assembly.inherited, if_pos own]
    rw [parts, List.forall_mem_cons, List.forall_mem_append, List.forall_mem_append,
      Assembly.satisfies_interfacesOver]
    simp only [List.forall_mem_singleton, and_assoc]
    exact and_congr_right fun _ => and_congr_right fun _ => and_congr_right fun _ => leaf
  · obtain ⟨entry, c, registered, composite, -⟩ := Assembly.exists_of_field? here
    have recorded := v.typeAt_composite registered (composite ▸ rfl)
    rwa [own] at recorded

/-- A query for a color. Its type, an interface of it and the enum that it names have requirements too. -/
def colorSubgraph : List Statement :=
  let holding (scope : String) := Requirement.directives ⟨false, [OrderedSet.ofList [scope]]⟩
  let color (scope : String) : FieldDefinition := ⟨"color", none, [], .named "Color" false, holding scope⟩
  [.define (.type ⟨"Painted", none, holding "paint", .interface [] [color "interface"]⟩),
    .define (.type ⟨"Query", none, Requirement.directives ⟨true, []⟩, .object ["Painted"] [color "query"]⟩),
    .define (.type ⟨"Color", none, holding "color", .enum [⟨"RED", none, []⟩]⟩)]

theorem satisfies_color : ∃ n, (normalize .default colorSubgraph).result? = some n ∧
    ∀ who : Credential, who.Satisfies (n.authorization.fieldAt "Query" "color") →
      who.authenticated = true ∧ who.holds "paint" = true ∧ who.holds "color" = true := by
  let a := Assembly.of NormalizationOptions.default.subgraph NormalizationOptions.default.maxOrScopes
    colorSubgraph
  obtain ⟨n, valid⟩ := Option.isSome_iff_exists.mp
    (by decide +kernel : (normalize .default colorSubgraph).result?.isSome = true)
  refine ⟨n, valid, fun who satisfied => ?_⟩
  obtain ⟨-, rfl⟩ := result_of_normalize valid
  have known : ∃ field, a.types.field? "Query" "color" = some field ∧ field.type.namedType = "Color" := by
    have inside : ((a.types.field? "Query" "color").any fun field => field.type.namedType = "Color") = true := by
      decide +kernel
    simpa [Option.any_eq_true] using inside
  obtain ⟨field, known, type⟩ := known
  have all := satisfies_recorded valid known (by decide +kernel)
  obtain ⟨-, query, interfaces, leaf⟩ := (all.1 who).mp satisfied
  have painted := (interfaces "Painted" (by decide +kernel) (by decide +kernel) (by decide +kernel)).2
  have color := leaf .enum (by rw [type]; decide +kernel) rfl
  rw [type] at color
  rw [(by decide +kernel : a.requiredByType "Query" = ⟨true, []⟩)] at query
  rw [(by decide +kernel : a.requiredByType "Painted" = ⟨false, [OrderedSet.ofList ["paint"]]⟩)] at painted
  rw [(by decide +kernel : a.result.authorization.typeAt "Color" = ⟨false, [OrderedSet.ofList ["color"]]⟩)] at color
  simp only [Credential.satisfies_scope] at painted color
  exact ⟨query.1 rfl, painted.2, color.2⟩

end Federation
