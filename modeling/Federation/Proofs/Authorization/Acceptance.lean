import Federation.Proofs.Normalization.Sightings

/-!
# Accepted applications

An application of scopes that passes the check of its arguments reaches the recorded requirement just where
its scopes are written as a list of lists. Where a single value stands for a list of itself, the check passes
and the application is lost, with the authentication that is asked for beside it.
-/

namespace Federation

open Schema
open Authorization

namespace Authorization

/-- Whether a requirement has the alternatives of another and asks for authentication where the other does. -/
def Requirement.Carries (r said : Requirement) : Prop :=
  r.scopes = said.scopes ∧ (said.authenticated = true → r.authenticated = true)

theorem Requirement.Carries.satisfies {r said : Requirement} (carries : r.Carries said) {who : Credential}
    (met : who.Satisfies r) : who.Satisfies said :=
  ⟨fun asked => met.1 (carries.2 asked), carries.1 ▸ met.2⟩

/-- Without an application of scopes no alternatives are declared. -/
theorem scopes_asked_of_countP_eq_zero (limit : Nat) {applied : List Directive}
    (absent : applied.countP (·.name = Vocabulary.requiresScopes) = 0) :
    (Declared.on limit applied).asked.scopes = [] := by
  rw [List.countP_eq_length_filter, List.length_eq_zero_iff] at absent
  unfold Declared.on Declared.of
  rw [absent]
  split <;> rfl

/-- Two applications of authentication on one host cancel all that is declared there. -/
theorem asked_of_repeated (limit : Nat) {applied : List Directive}
    (repeated : 1 < applied.countP (·.name = Vocabulary.authenticated)) :
    (Declared.on limit applied).asked = .none := by
  unfold Declared.on Declared.of
  rw [if_pos (Or.inl repeated)]
  rfl

theorem asked_carries_iff (limit : Nat) {applied : List Directive} {d : Directive} {v : Value}
    (member : d ∈ applied) (name : d.name = Vocabulary.requiresScopes)
    (given : d.argument? Vocabulary.scopes = some v)
    (single : applied.countP (·.name = Vocabulary.requiresScopes) = 1)
    (once : applied.countP (·.name = Vocabulary.authenticated) ≤ 1) (inOrder : InOrder applied)
    (within : (Declared.on limit applied matches .overLimit) = false) :
    (v.isNested = true → (Declared.on limit applied).asked = .said applied) ∧
      (v.isNested = false →
        (Declared.on limit applied).asked = .none ∧ (Requirement.said applied).scopes ≠ []) := by
  -- Scopes are applied once, so all applications are nested if this one is.
  have only : applied.filter (fun d => decide (d.name = Vocabulary.requiresScopes)) = [d] := by
    rw [List.countP_eq_length_filter] at single
    obtain ⟨e, listed⟩ := List.length_eq_one_iff.mp single
    have here : d ∈ applied.filter (fun d => decide (d.name = Vocabulary.requiresScopes)) :=
      List.mem_filter.mpr ⟨member, decide_eq_true name⟩
    rw [listed] at here ⊢
    rw [List.mem_singleton.mp here]
  have nested : AllNested applied ↔ v.isNested = true := by
    constructor
    · exact fun all => all d member name v given
    · intro nested e listed named w given'
      have here : e ∈ applied.filter (fun d => decide (d.name = Vocabulary.requiresScopes)) :=
        List.mem_filter.mpr ⟨listed, decide_eq_true named⟩
      rw [only, List.mem_singleton] at here
      subst here
      obtain rfl := Option.some.inj (given.symm.trans given')
      exact nested
  have asked := asked_on limit inOrder within once (Nat.le_of_eq single)
  refine ⟨fun h => asked.1 (nested.mpr h), fun flat => ⟨asked.2 fun all => ?_, ?_⟩⟩
  · exact absurd (nested.mp all) (by simp [flat])
  · obtain ⟨w, given', admitted⟩ := inOrder d member name
    obtain rfl := Option.some.inj (given.symm.trans given')
    simpa [Requirement.said, only, listedScopes, given] using coercedScopes_ne_nil admitted flat

theorem countP_of_block {blocks : List (List Directive)} {applied : List Directive} {d : Directive}
    (block : applied ∈ blocks) (member : d ∈ applied) (name : d.name = Vocabulary.requiresScopes)
    (single : blocks.flatten.countP (·.name = Vocabulary.requiresScopes) = 1) :
    applied.countP (·.name = Vocabulary.requiresScopes) = 1 := by
  have here : 0 < applied.countP (·.name = Vocabulary.requiresScopes) :=
    List.countP_pos_iff.mpr ⟨d, member, decide_eq_true name⟩
  have below : applied.countP (·.name = Vocabulary.requiresScopes) ≤ _ :=
    (List.sublist_flatten_of_mem block).countP_le
  omega

/-- Of several hosts that count together, one lists scopes. They are carried just where they are written as a
list of lists. -/
theorem carries_gathered_iff (limit : Nat) {blocks : List (List Directive)} {applied : List Directive}
    {d : Directive} {v : Value} (block : applied ∈ blocks) (member : d ∈ applied)
    (name : d.name = Vocabulary.requiresScopes) (given : d.argument? Vocabulary.scopes = some v)
    (single : blocks.flatten.countP (·.name = Vocabulary.requiresScopes) = 1)
    (once : applied.countP (·.name = Vocabulary.authenticated) ≤ 1) (inOrder : InOrder applied)
    (within : (Declared.on limit applied matches .overLimit) = false) :
    (Requirement.gathered (blocks.map fun b => (Declared.on limit b).asked)).Carries (.said applied) ↔
      v.isNested = true := by
  have here := countP_of_block block member name single
  obtain ⟨before, after, rfl⟩ := List.append_of_mem block
  simp only [List.flatten_append, List.flatten_cons, List.countP_append] at single
  -- The one application of scopes stands in this block, so that the others list no alternatives.
  have quiet : ∀ bs : List (List Directive), bs.flatten.countP (·.name = Vocabulary.requiresScopes) = 0 →
      (bs.map fun b => (Declared.on limit b).asked).flatMap Requirement.scopes = [] := by
    intro bs none
    rw [List.flatMap_map]
    refine List.flatMap_eq_nil_iff.mpr fun b inside => scopes_asked_of_countP_eq_zero limit ?_
    rw [List.countP_eq_zero] at none ⊢
    exact fun d listed => none d (List.mem_flatten.mpr ⟨b, inside, listed⟩)
  have scopes : (Requirement.gathered ((before ++ applied :: after).map fun b =>
      (Declared.on limit b).asked)).scopes = (Declared.on limit applied).asked.scopes := by
    unfold Requirement.gathered
    rw [List.map_append, List.map_cons, List.flatMap_append, List.flatMap_cons, quiet before (by omega),
      quiet after (by omega), List.nil_append, List.append_nil]
  obtain ⟨kept, lost⟩ := asked_carries_iff limit member name given here once inOrder within
  constructor
  · intro carries
    refine by_contra fun flat => ?_
    obtain ⟨nothing, some⟩ := lost (by simpa using flat)
    exact some (carries.1.symm.trans (scopes.trans (by rw [nothing]; rfl)))
  · intro nested
    refine ⟨scopes.trans (by rw [kept nested]), fun asked => ?_⟩
    refine List.any_eq_true.mpr ⟨(Declared.on limit applied).asked, ?_, by rw [kept nested]; exact asked⟩
    exact List.mem_map.mpr ⟨applied, block, rfl⟩

end Authorization

/-- The reader of scopes and the check of arguments agree on lists of lists and on nothing else. In a valid
subgraph the one application of scopes on a site, and one of authentication beside it, reach the requirement of
the site just where the scopes are written so. Otherwise the whole block of directives is lost, as it is where
authentication is repeated. -/
theorem accepted_iff_nested (v : Value) :
    (scopesType.admits v = true → (scopes? v = some v.coercedScopes ↔ v.isNested = true)) ∧
    ∀ (options : NormalizationOptions) (statements : List Statement) (n : NormalSubgraph),
      (normalize options statements).result? = some n →
      ∀ site : Site, site.IsRegistered n.types →
      (site.blocks statements).flatten.countP (·.name = Vocabulary.requiresScopes) = 1 →
      ∀ applied ∈ site.blocks statements, ∀ d ∈ applied, d.name = Vocabulary.requiresScopes →
      d.argument? Vocabulary.scopes = some v →
        let a := Assembly.of options.subgraph options.maxOrScopes statements
        scopesType.admits v = true ∧
        (applied.countP (·.name = Vocabulary.authenticated) ≤ 1 →
          ((a.declaredAt site).Carries (.said applied) ↔ v.isNested = true) ∧
          (v.isNested = true → ∀ who : Credential, who.Satisfies (n.recordedAt site) →
            who.Satisfies (.said applied))) ∧
        (v.isNested = false ∨ 1 < applied.countP (·.name = Vocabulary.authenticated) →
          (Declared.on options.maxOrScopes applied).asked = .none) := by
  refine ⟨fun admitted => ?_, fun options statements n valid => ?_⟩
  · rw [scopes?_of_admits admitted]
    cases v.isNested <;> simp
  · intro site registered single applied block d member name given a
    obtain ⟨clean, rfl⟩ := result_of_normalize valid
    have valid' := Assembly.valid_of options.subgraph options.maxOrScopes statements clean
    have limit : a.setting.maxOrScopes = options.maxOrScopes := Assembly.maxOrScopes_of _ _ statements
    obtain ⟨inOrder, within⟩ := valid'.of_block site registered block
    obtain ⟨w, given', admitted⟩ := inOrder d member name
    obtain rfl := Option.some.inj (given.symm.trans given')
    refine ⟨admitted, fun once => ?_, fun lost => ?_⟩
    · have carries := carries_gathered_iff _ block member name given single once inOrder within
      rw [← valid'.declaredAt_eq site registered] at carries
      exact ⟨carries, fun nested who met =>
        (carries.mpr nested).satisfies (valid'.declaredAt_of_recordedAt site registered met)⟩
    -- A block that repeats authentication is lost, whatever its scopes are.
    · by_cases repeated : 1 < applied.countP (·.name = Vocabulary.authenticated)
      · exact asked_of_repeated options.maxOrScopes repeated
      · have here := countP_of_block block member name single
        rw [limit] at within
        exact ((asked_carries_iff options.maxOrScopes member name given here (by omega) inOrder within).2
          (lost.resolve_right repeated)).1

/-- A query with one field, on which authentication is asked for beside the given scopes. -/
def vaultQuery (v : Value) : TypeDefinition :=
  ⟨"Query", none, [], .object [] [⟨"vault", none, [], .named "String" false,
    [⟨Vocabulary.requiresScopes, [(Vocabulary.scopes, v)]⟩, ⟨Vocabulary.authenticated, []⟩]⟩]⟩

theorem nested_scopes_reach : ∃ n,
    (normalize .default [.define (.type (vaultQuery (.list [.list [.string "a"]])))]).result? = some n ∧
    ∀ who : Credential, who.Satisfies (n.authorization.fieldAt "Query" "vault") →
      who.authenticated = true ∧ who.holds "a" = true := by
  let v : Value := .list [.list [.string "a"]]
  let statements : List Statement := [.define (.type (vaultQuery v))]
  let applied : List Directive :=
    [⟨Vocabulary.requiresScopes, [(Vocabulary.scopes, v)]⟩, ⟨Vocabulary.authenticated, []⟩]
  obtain ⟨n, valid⟩ := Option.isSome_iff_exists.mp
    (by decide +kernel : (normalize .default statements).result?.isSome = true)
  have registered : ((normalize .default statements).result?.any fun n =>
      (n.types.field? "Query" "vault").isSome && n.roots.canonicalName "Query" = "Query") = true := by
    decide +kernel
  simp only [valid, Option.any_some, Bool.and_eq_true, decide_eq_true_eq] at registered
  have block : applied ∈ (Site.field "Query" "vault").blocks statements := List.mem_cons_self
  have reached := (accepted_iff_nested v).2 _ statements n valid (.field "Query" "vault") registered.1
    (by decide +kernel) applied block _ List.mem_cons_self rfl rfl
  obtain ⟨-, carried, -⟩ := reached
  refine ⟨n, valid, fun who met => ?_⟩
  have recorded : n.recordedAt (.field "Query" "vault") = n.authorization.fieldAt "Query" "vault" := by
    rw [NormalSubgraph.recordedAt, registered.2]
  have said := (carried (by decide)).2 rfl who (recorded ▸ met)
  rw [(by decide : Requirement.said applied = ⟨true, [OrderedSet.ofList ["a"]]⟩), who.satisfies_scope] at said
  exact ⟨said.1 rfl, said.2⟩

/-- A list of scopes passes the check as a list of lists, and nothing at all is asked of clients. -/
theorem flat_scopes_lost :
    scopesType.admits (.list [.string "a"]) = true ∧
    (Value.list [.string "a"]).coercedScopes = [OrderedSet.ofList ["a"]] ∧
    scopes? (.list [.string "a"]) = none ∧
    ∃ n, (normalize .default [.define (.type (vaultQuery (.list [.string "a"])))]).result? = some n ∧
      n.authorization.fieldAt "Query" "vault" = .none := by
  have lost : ((normalize .default [.define (.type (vaultQuery (.list [.string "a"])))]).result?.any fun n =>
      n.authorization.fieldAt "Query" "vault" = .none) = true := by
    decide +kernel
  simp only [Option.any_eq_true, decide_eq_true_eq] at lost
  exact ⟨by decide, by decide, rfl, lost⟩

end Federation
