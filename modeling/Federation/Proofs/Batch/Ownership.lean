import Federation.Proofs.Batch.Contested
import Federation.Proofs.Batch.Overridden

/-!
# Who resolves a field after a batch

A field that is taken over from a subgraph leaves its configuration. So it depends on the subgraph that takes it over
whether anybody resolves it afterwards: that subgraph has to have it as a field of its own, and to keep it.
-/

namespace Federation

/-- Taking fields away takes them from what is resolved, and nothing else. -/
theorem Router.Relieved.resolves_iff {taken : String → String → Prop} {before after : Table String Router.Configuration}
    (r : Router.Relieved taken before after) {typeName name : String} :
    Router.Resolves after typeName name ↔ Router.Resolves before typeName name ∧ ¬ taken typeName name := by
  -- A type of which something is taken is left out once it has no fields, and any other one stays as it is.
  by_cases some : ∃ name, taken typeName name
  · have relieved := r.relieved typeName
    constructor
    · rintro ⟨c, found, member⟩
      obtain ⟨old, known⟩ := Table.exists_get?_of_mem_keys (r.ordered.subset (Table.mem_keys_of_get? found))
      obtain ⟨kept, -, exact, left⟩ := relieved old known some
      rw [left, Option.ite_none_left_eq_some] at found
      obtain ⟨-, same⟩ := found
      obtain rfl := Option.some.inj same
      obtain ⟨inside, free⟩ := (exact name).mp member
      exact ⟨⟨old, known, inside⟩, free⟩
    · rintro ⟨⟨c, known, inside⟩, free⟩
      obtain ⟨kept, -, exact, left⟩ := relieved c known some
      have member := (exact name).mpr ⟨inside, free⟩
      exact ⟨{ c with fieldNames := kept }, by rw [left, if_neg (List.ne_nil_of_mem member)], member⟩
  · have nothing : ∀ name, ¬ taken typeName name := fun name taken => some ⟨name, taken⟩
    simp only [Router.Resolves, r.untouched typeName nothing, nothing name, not_false_eq_true, and_true]

/-- Whether a subgraph that comes out of a batch resolves a field. -/
def BatchOutcome.Resolves (o : BatchOutcome) (subgraph typeName name : String) : Prop :=
  ∃ e, o.subgraphs.get? subgraph = some e ∧ Router.Resolves e.configuration typeName name

namespace Batch

variable {options : BatchOptions} {subgraphs : List Subgraph}

/-- Whether a field of a subgraph is still its own after a batch, or else exactly one other subgraph takes it over
and resolves it. -/
def KeepsOwned (options : BatchOptions) (subgraphs : List Subgraph) (owner typeName name : String) : Prop :=
  (normalizeBatch options subgraphs).Resolves owner typeName name ∨
    ∃ s ∈ subgraphs, ∃ heir, s.name = some heir ∧ heir ≠ owner ∧
      (∃ localName, Takes options s ⟨owner, typeName, name⟩ localName) ∧
      (∀ s' ∈ subgraphs, ∀ localName, Takes options s' ⟨owner, typeName, name⟩ localName → s' = s) ∧
      (normalizeBatch options subgraphs).Resolves heir typeName name

/-- Whether a subgraph has a field itself, with the given name for its type, and leaves it to no other subgraph. -/
def HasOwn (options : BatchOptions) (s : Subgraph) (localName name : String) : Prop :=
  ∃ n field, (outcomeOf options s).result? = some n ∧ ¬ n.IsSupportType localName ∧
    n.types.field? localName name = some field ∧ field.isExternal = false

/-- Whether the subgraphs that take a field over from one of the given ones have the given name for its type. -/
def TakenAs (options : BatchOptions) (subgraphs : List Subgraph) (localName typeName name : String)
    (targets : List String) : Prop :=
  ∀ s ∈ subgraphs, ∀ target ∈ targets, ∀ otherName,
    Takes options s ⟨target, typeName, name⟩ otherName → otherName = localName

theorem resolves_iff_hasOwn {s : Subgraph} {n : NormalSubgraph} (valid : (outcomeOf options s).result? = some n)
    {t : Takeover} {localName : String} (takes : Takes options s t localName) :
    Router.Resolves n.configuration t.typeName t.field ↔ HasOwn options s localName t.field := by
  have named := ((takes_iff valid).mp takes).2
  rw [resolves_iff valid]
  constructor
  · rintro ⟨typeName, field, canonical, own, known, resolved⟩
    -- Both are what the subgraph calls the type of that canonical name.
    have here : typeName = localName := by
      rw [← named, ← canonical, localName_of_field? valid (Option.isSome_of_eq_some known)]
    exact ⟨n, field, valid, here ▸ own, here ▸ known, resolved⟩
  · rintro ⟨n', field, valid', own, known, resolved⟩
    obtain rfl := Option.some.inj (valid.symm.trans valid')
    obtain ⟨n', valid', canonical, -⟩ := takes
    obtain rfl := Option.some.inj (valid.symm.trans valid')
    exact ⟨localName, field, canonical, own, known, resolved⟩

section Success

variable (success : (normalizeBatch options subgraphs).isSuccess = true)

include success

/-- After a batch a subgraph resolves what it resolves on its own and nobody takes over from it. -/
theorem resolves_normalizeBatch {s : Subgraph} (given : s ∈ subgraphs) {subgraph : String}
    (named : s.name = some subgraph) {n : NormalSubgraph} (valid : (outcomeOf options s).result? = some n)
    {typeName name : String} :
    (normalizeBatch options subgraphs).Resolves subgraph typeName name ↔
      Router.Resolves n.configuration typeName name ∧ ¬ Taken options subgraphs subgraph typeName name := by
  obtain ⟨⟨_, e⟩, member, named', n', valid', out⟩ := exists_of_forall₂ (forall₂_handsOut success).flip given
  obtain rfl := Option.some.inj (named.symm.trans named')
  obtain rfl := Option.some.inj (valid.symm.trans valid')
  have found := Table.mem_toList.mp member
  rw [← out.configuration.resolves_iff]
  constructor
  · rintro ⟨e', found', resolves⟩
    exact Option.some.inj (found.symm.trans found') ▸ resolves
  · exact fun resolves => ⟨e, found, resolves⟩

/-- Where a batch succeeds, nobody else shows a field that a subgraph takes over. -/
theorem eq_of_takes {s s' : Subgraph} (given : s ∈ subgraphs) (given' : s' ∈ subgraphs) {t t' : Takeover}
    {localName localName' : String} (takes : Takes options s t localName) (takes' : Takes options s' t' localName')
    (path : coordinates localName t.field = coordinates localName' t'.field) : s = s' ∧ t = t' := by
  obtain ⟨w, -, quiet⟩ := isSuccess_iff.mp success
  obtain ⟨n, member, shows⟩ := exists_shown_of_takes given takes
  obtain ⟨n', member', shows'⟩ := exists_shown_of_takes given' takes'
  obtain ⟨same, one⟩ := eq_of_notMem_contested w (quiet ▸ List.not_mem_nil) member member' shows (path ▸ shows')
  exact ⟨congrArg Prod.fst same, one⟩

/-- Of the subgraphs that have one name for a type, one takes a field of it over, and it does so once. -/
theorem eq_of_takenAs {s s' : Subgraph} (given : s ∈ subgraphs) (given' : s' ∈ subgraphs)
    {owner typeName name localName : String} (takes : Takes options s ⟨owner, typeName, name⟩ localName)
    {targets : List String} (alike : TakenAs options subgraphs localName typeName name targets) {target : String}
    (among : target ∈ targets) {otherName : String} (takes' : Takes options s' ⟨target, typeName, name⟩ otherName) :
    s' = s ∧ target = owner := by
  have path := alike s' given' target among otherName takes'
  obtain ⟨same, field⟩ := eq_of_takes success given' given takes' takes (by rw [path])
  exact ⟨same, congrArg Takeover.target field⟩

end Success

theorem foreign_of_takes {s : Subgraph} {subgraph : String} (named : s.name = some subgraph) {t : Takeover}
    {localName : String} (takes : Takes options s t localName) : subgraph ≠ t.target := by
  obtain ⟨n, valid, -, declares⟩ := takes
  have foreign := foreign_of_takesOver valid declares
  simp only [NormalizationOptions.subgraph, named, Option.getD_some] at foreign
  exact foreign.symm

/-- What the subgraphs that take a field over have to be like is seen from what the members hand out. -/
theorem hasOwn_and_takenAs_of_members {owner typeName name : String}
    (clean : ∀ x ∈ members options subgraphs, ⟨owner, typeName, name⟩ ∈ x.2.overrides.takeovers →
      ¬ x.2.IsSupportType (x.2.roots.localName typeName) ∧
      (x.2.types.field? (x.2.roots.localName typeName) name).map (·.isExternal) = some false ∧
      ∀ y ∈ members options subgraphs, ∀ target ∈ [owner, x.1.name.getD ""],
        ⟨target, typeName, name⟩ ∈ y.2.overrides.takeovers →
          y.2.roots.localName typeName = x.2.roots.localName typeName)
    {s : Subgraph} (given : s ∈ subgraphs) {heir : String} (named : s.name = some heir) {localName : String}
    (takes : Takes options s ⟨owner, typeName, name⟩ localName) :
    HasOwn options s localName name ∧ TakenAs options subgraphs localName typeName name [owner, heir] := by
  obtain ⟨n, valid, -⟩ := id takes
  obtain ⟨taken, rfl⟩ := (takes_iff valid).mp takes
  obtain ⟨own, known, alike⟩ := clean (s, n) (mem_members.mpr ⟨given, valid⟩) taken
  obtain ⟨field, known, resolved⟩ := Option.map_eq_some_iff.mp known
  refine ⟨⟨n, field, valid, own, known, resolved⟩, fun s' given' target among otherName takes' => ?_⟩
  obtain ⟨n', valid', -⟩ := id takes'
  obtain ⟨taken', rfl⟩ := (takes_iff valid').mp takes'
  exact alike (s', n') (mem_members.mpr ⟨given', valid'⟩) target (by simpa [named] using among) taken'

end Batch

open Batch

/-- A field that a subgraph resolves on its own is kept by it in a batch, or resolved by the one subgraph that takes
it over, just where every subgraph that does so has the field itself, and those that take it over from either call its
type by the same name. -/
theorem keepsOwned_iff {options : BatchOptions} {subgraphs : List Subgraph}
    (success : (normalizeBatch options subgraphs).isSuccess = true) {s : Subgraph} (given : s ∈ subgraphs)
    {owner : String} (named : s.name = some owner) {n : NormalSubgraph}
    (valid : (outcomeOf options s).result? = some n) {typeName name : String}
    (resolves : Router.Resolves n.configuration typeName name) :
    KeepsOwned options subgraphs owner typeName name ↔
      ∀ s' ∈ subgraphs, ∀ heir, s'.name = some heir → ∀ localName,
        Takes options s' ⟨owner, typeName, name⟩ localName →
          HasOwn options s' localName name ∧ TakenAs options subgraphs localName typeName name [owner, heir] := by
  have w := (isSuccess_iff.mp success).1
  have after := @resolves_normalizeBatch options subgraphs success
  constructor
  case mp =>
    intro keeps s' given' heir named' localName takes
    have taken : Taken options subgraphs owner typeName name := ⟨s', given', localName, takes⟩
    -- What is taken is not kept, so it was handed on, and to nobody but the subgraph at hand.
    rcases keeps with kept | ⟨s₀, given₀, heir₀, named₀, -, -, one, resolves₀⟩
    · exact absurd taken ((after given named valid).mp kept).2
    obtain rfl := one s' given' localName takes
    obtain rfl := Option.some.inj (named'.symm.trans named₀)
    obtain ⟨n', valid', -⟩ := id takes
    obtain ⟨own, free⟩ := (after given' named' valid').mp resolves₀
    refine ⟨(resolves_iff_hasOwn valid' takes).mp own, fun s'' given'' target among otherName takes'' => ?_⟩
    rcases List.mem_pair.mp among with rfl | rfl
    · obtain rfl := one s'' given'' otherName takes''
      exact ((takes_iff valid').mp takes'').2.symm.trans ((takes_iff valid').mp takes).2
    · exact absurd ⟨s'', given'', otherName, takes''⟩ free
  case mpr =>
    intro clean
    by_cases taken : Taken options subgraphs owner typeName name
    · obtain ⟨s', given', localName, takes⟩ := taken
      obtain ⟨heir, named'⟩ := w.exists_name given'
      obtain ⟨n', valid', -⟩ := id takes
      obtain ⟨own, alike⟩ := clean s' given' heir named' localName takes
      have different := foreign_of_takes named' takes
      refine .inr ⟨s', given', heir, named', different, ⟨localName, takes⟩, fun s'' given'' otherName takes'' => ?_,
        (after given' named' valid').mpr ⟨(resolves_iff_hasOwn valid' takes).mpr own, ?_⟩⟩
      · exact (eq_of_takenAs success given' given'' takes alike (by simp) takes'').1
      · rintro ⟨s'', given'', otherName, takes''⟩
        exact different (eq_of_takenAs success given' given'' takes alike (by simp) takes'').2
    · exact .inl ((after given named valid).mpr ⟨resolves, taken⟩)

theorem keepsOwned_givingSubgraph :
    (normalizeBatch .default [givingSubgraph, takingSubgraph "B" "A" "Query"]).isSuccess = true ∧
      KeepsOwned .default [givingSubgraph, takingSubgraph "B" "A" "Query"] "A" "Query" "a" := by
  have success : (normalizeBatch .default [givingSubgraph, takingSubgraph "B" "A" "Query"]).isSuccess = true := by
    decide +kernel
  have resolved : ∃ n ∈ (outcomeOf .default givingSubgraph).result?, Router.Resolves n.configuration "Query" "a" := by
    decide +kernel
  obtain ⟨n, valid, resolves⟩ := resolved
  refine ⟨success, (keepsOwned_iff success (s := givingSubgraph) List.mem_cons_self rfl valid resolves).mpr
    fun s given heir named localName takes => ?_⟩
  exact hasOwn_and_takenAs_of_members (by decide +kernel) given named takes

/-- Two subgraphs that take a field over from each other and call its type by different names. -/
def mutualBatch : List Subgraph := [takingSubgraph "A" "B" "Root", takingSubgraph "B" "A" "Query"]

/-- The batch succeeds, and afterwards neither resolves the field. -/
theorem not_keepsOwned_mutualBatch : (normalizeBatch .default mutualBatch).isSuccess = true ∧
    (∃ s ∈ mutualBatch, s.name = some "A" ∧ ∃ n, (outcomeOf .default s).result? = some n ∧
      Router.Resolves n.configuration "Query" "a") ∧
    ¬ KeepsOwned .default mutualBatch "A" "Query" "a" := by
  have resolved : ∃ x ∈ members .default mutualBatch, x.1.name = some "A" ∧
      Router.Resolves x.2.configuration "Query" "a" := by
    decide +kernel
  have lost : ∀ e ∈ (normalizeBatch .default mutualBatch).subgraphs.toList,
      ¬ Router.Resolves e.2.configuration "Query" "a" := by
    decide +kernel
  refine ⟨by decide +kernel, ?_, ?_⟩
  · obtain ⟨x, member, named, resolves⟩ := resolved
    obtain ⟨given, valid⟩ := mem_members.mp member
    exact ⟨x.1, given, named, x.2, valid, resolves⟩
  · have nobody : ∀ subgraph, ¬ (normalizeBatch .default mutualBatch).Resolves subgraph "Query" "a" :=
      fun subgraph ⟨e, out, resolves⟩ => lost (subgraph, e) (Table.mem_toList.mpr out) resolves
    rintro (kept | ⟨_, _, heir, _, _, _, _, resolves⟩)
    · exact nobody "A" kept
    · exact nobody heir resolves

end Federation
