import Federation.Proofs.Authorization.Redeclaration
import Federation.Proofs.Batch.Requirements
import Federation.Proofs.Batch.Taken

/-!
# The limit on alternatives

Each application of scopes and each join is checked against the limit, and the alternatives of several
sightings are not. A requirement keeps to the limit where what is declared on every site does.
-/

namespace Federation

open Schema
open Authorization

namespace Authorization

/-- No recorded requirement has more alternatives than allowed, be it of a type or of a field. -/
def Records.Within (limit : Nat) (records : Records) : Prop :=
  ∀ record ∈ Table.toList records, record.2.requirement.scopes.length ≤ limit ∧
    ∀ field ∈ record.2.fields.toList, field.2.scopes.length ≤ limit

instance (limit : Nat) (records : Records) : Decidable (records.Within limit) :=
  inferInstanceAs (Decidable (∀ record ∈ Table.toList records, _ ∧ _))

/-- What has no record requires nothing. -/
theorem Records.within_iff {limit : Nat} {records : Records} :
    records.Within limit ↔ ∀ typeName, (records.typeAt typeName).scopes.length ≤ limit ∧
      ∀ name, (records.fieldAt typeName name).scopes.length ≤ limit := by
  constructor
  · intro within typeName
    unfold typeAt fieldAt of Record.field Table.getD
    cases found : Table.get? records typeName with
    | none => exact ⟨Nat.zero_le limit, fun _ => Nat.zero_le limit⟩
    | some record =>
      have here := within (typeName, record) (Table.mem_toList.mpr found)
      refine ⟨here.1, fun name => ?_⟩
      cases field : record.fields.get? name with
      | none => simp [field, Requirement.none]
      | some r => simpa [field] using here.2 (name, r) (Table.mem_toList.mpr field)
  · intro views record member
    have found : Table.get? records record.1 = some record.2 := Table.mem_toList.mp member
    have here := views record.1
    simp only [typeAt, fieldAt, of, Record.field, Table.getD, found, Option.getD_some] at here
    refine ⟨here.1, fun field inside => ?_⟩
    have given : record.2.fields.get? field.1 = some field.2 := Table.mem_toList.mp inside
    simpa [given] using here.2 field.1

/-! ## Single declarations -/

theorem length_mapM {α β : Type} (f : α → Option β) {xs : List α} {ys : List β} (read : xs.mapM f = some ys) :
    ys.length = xs.length := by
  induction xs generalizing ys with
  | nil =>
    obtain rfl := Option.some.inj read
    rfl
  | cons x xs ih =>
    simp only [List.mapM_cons, Option.bind_eq_bind, Option.bind_eq_some_iff, Option.pure_def,
      Option.some.injEq] at read
    obtain ⟨y, -, rest, later, rfl⟩ := read
    simp [ih later]

/-- Reading a value gives no more alternatives than it has items. -/
theorem length_scopes? {v : Value} {alternatives : List NameSet} (read : scopes? v = some alternatives) :
    ∃ items, v.list? = some items ∧ alternatives.length ≤ items.length := by
  simp only [scopes?, Option.bind_eq_bind, Option.bind_eq_some_iff, Option.pure_def, Option.some.injEq] at read
  obtain ⟨items, listed, all, mapped, rfl⟩ := read
  exact ⟨items, listed, Nat.le_trans (List.length_filter_le _ _) (Nat.le_of_eq (length_mapM _ mapped))⟩

/-- One host never asks for more alternatives than allowed. -/
theorem length_of_declared (limit authenticated : Nat) (scopings : List Directive) :
    (Declared.of limit authenticated scopings).asked.scopes.length ≤ limit := by
  unfold Declared.of
  split
  · exact Nat.zero_le limit
  · split
    · exact Nat.zero_le limit
    · next value _ =>
      split
      · exact Nat.zero_le limit
      · next room =>
        split
        · exact Nat.zero_le limit
        · next alternatives read =>
          -- The limit is on the items that are written, and each of them makes one alternative at most.
          obtain ⟨items, listed, below⟩ := length_scopes? read
          simp only [listed, Option.any_some, decide_eq_true_eq, Nat.not_lt] at room
          exact Nat.le_trans below room

theorem length_of_typeLevel {limit : Nat} {applied : AppliedDirectives} {r : Requirement}
    (level : typeLevel limit applied = .requirement r) : r.scopes.length ≤ limit := by
  have bound : (typeLevel limit applied).asked.scopes.length ≤ limit := length_of_declared _ _ _
  rwa [level] at bound

namespace Ledger

variable (limit : Nat) (roots : RootTypes) (types : Registry) (concrete : ConcreteTypes) (l : Ledger)

theorem length_fromType (typeName name : String) (e : String × TypeEntry) :
    ∀ r ∈ fromType limit roots typeName name e, r.scopes.length ≤ limit := by
  intro r member
  unfold fromType at member
  split at member
  · next c r' _ level =>
    split at member
    · obtain rfl := List.mem_singleton.mp member
      exact length_of_typeLevel level
    · exact absurd member List.not_mem_nil
  · exact absurd member List.not_mem_nil

theorem length_typeAt_inheritFromType (e : String × TypeEntry) (typeName : String)
    (before : (l.records.typeAt typeName).scopes.length ≤ limit) :
    ((l.inheritFromType limit roots e.1 e.2).records.typeAt typeName).scopes.length ≤ limit := by
  rw [typeAt_inheritFromType]
  split
  · next c r _ level =>
    split
    · exact length_of_typeLevel level
    · exact before
  · exact before

theorem length_typeAt_foldl (es : List (String × TypeEntry)) (l : Ledger) (typeName : String)
    (before : (l.records.typeAt typeName).scopes.length ≤ limit) :
    ((es.foldl (fun l e => l.inheritFromType limit roots e.1 e.2) l).records.typeAt typeName).scopes.length ≤
      limit := by
  induction es generalizing l with
  | nil => exact before
  | cons e rest ih =>
    exact ih (l.inheritFromType limit roots e.1 e.2) (length_typeAt_inheritFromType limit roots l e typeName before)

theorem within_afterTypes (room : (l.afterTypes limit roots types).overLimit.toList = [])
    (start : l.records.Within limit) : (l.afterTypes limit roots types).records.Within limit := by
  rw [Records.within_iff] at start ⊢
  intro typeName
  constructor
  · exact length_typeAt_foldl limit roots types.toList l typeName (start typeName).1
  · intro name
    have received := receives_afterTypes limit roots types l typeName name
    have joined := received.joined
    dsimp only [books] at joined
    rw [joined]
    refine Requirement.length_joinAll_le limit _ _ (received.room room).2 ((start typeName).2 name) ?_
    intro r member
    obtain ⟨e, -, given⟩ := List.mem_flatMap.mp member
    exact length_fromType limit roots typeName name e r given

/-- Where there is room for all that is joined, inheritance keeps to the limit. -/
theorem within_consolidate (abstract : ∀ i ∈ coveringInterfaces limit types,
      ∀ j ∈ coveringInterfaces limit types, j ∉ (concrete.of i).toList)
    (room : (l.consolidate limit roots types concrete).overLimit.toList = [])
    (roomForTypes : (l.afterTypes limit roots types).overLimit.toList = [])
    (start : l.records.Within limit) : (l.consolidate limit roots types concrete).records.Within limit := by
  have types' := within_afterTypes limit roots types l roomForTypes start
  rw [Records.within_iff] at start types' ⊢
  intro typeName
  rw [typeAt_consolidate]
  refine ⟨(types' typeName).1, fun name => ?_⟩
  have received := receives_consolidate limit roots types concrete l abstract typeName name
  have joined := received.joined
  dsimp only [books] at joined
  rw [joined]
  refine Requirement.length_joinAll_le limit _ _ (received.room room).2 ((start typeName).2 name) ?_
  intro r member
  -- What is given comes from a type, from an interface or from a leaf type.
  rcases List.mem_append.mp member with member | member
  · rcases List.mem_append.mp member with member | member
    · obtain ⟨e, -, given⟩ := List.mem_flatMap.mp member
      exact length_fromType limit roots typeName name e r given
    · obtain ⟨i, -, given⟩ := List.mem_flatMap.mp member
      unfold fromInterface at given
      split at given
      · have field := (types' i).2 name
        rw [Records.fieldAt, Record.field, Table.getD, Option.mem_toList.mp given] at field
        exact field
      · exact absurd given List.not_mem_nil
  · obtain ⟨heir, -, given⟩ := List.mem_flatMap.mp member
    unfold fromLeaf at given
    split at given
    · obtain rfl := List.mem_singleton.mp given
      exact (types' heir.namedType).1
    · exact absurd given List.not_mem_nil

end Ledger

end Authorization

/-- How many alternatives the blocks of a site list together. -/
def Site.listed (limit : Nat) (statements : List Statement) (site : Site) : Nat :=
  ((site.blocks statements).flatMap fun b => (Declared.on limit b).asked.scopes).length

/-- No site lists more alternatives than allowed. -/
def NormalSubgraph.ListsWithin (n : NormalSubgraph) (limit : Nat) (statements : List Statement) : Prop :=
  ∀ site : Site, site.IsRegistered n.types → site.listed limit statements ≤ limit

namespace Assembly.Valid

variable {a : Assembly} {statements : List Statement}

theorem length_declaredAt (v : a.Valid statements) (site : Site) (registered : site.IsRegistered a.types) :
    (a.declaredAt site).scopes.length = site.listed a.setting.maxOrScopes statements := by
  rw [v.declaredAt_eq site registered]
  exact congrArg List.length (List.flatMap_map _ _ _)

/-- Where no site lists too many alternatives, no requirement has too many before anything is inherited. -/
theorem within_survey (v : a.Valid statements)
    (lists : ∀ site : Site, site.IsRegistered a.types →
      site.listed a.setting.maxOrScopes statements ≤ a.setting.maxOrScopes) :
    a.survey.ledger.records.Within a.setting.maxOrScopes := by
  rw [Records.within_iff]
  intro typeName
  constructor
  · by_cases leaf : typeName ∈ a.survey.ledger.leafTypes.toList
    · obtain ⟨kind, known, isLeaf⟩ := v.coherent.kind?_of_mem_leafTypes leaf
      have registered : (Site.leaf typeName).IsRegistered a.types :=
        (Option.any_eq_true _ _).mpr ⟨kind, known, isLeaf⟩
      rw [← v.typeAt_leaf known isLeaf]
      exact (v.length_declaredAt (.leaf typeName) registered).trans_le (lists _ registered)
    · rw [v.coherent.typeAt_of_not_mem_leafTypes leaf]
      exact Nat.zero_le _
  · intro name
    by_cases declared : ∃ d ∈ declarations a.setting statements, d.1.isField typeName name = true
    · obtain ⟨d, member, here⟩ := declared
      obtain ⟨parent, same, known⟩ := v.coherent.field?_of_isField member here
      have registered : (Site.field parent name).IsRegistered a.types := known
      have length := v.length_declaredAt (.field parent name) registered
      simp only [declaredAt, declaredOnField, same] at length
      exact length.trans_le (lists _ registered)
    -- A field that no declaration names has nothing recorded.
    · have nothing : Ledger.asked a.setting.maxOrScopes (Host.isField typeName name)
          (declarations a.setting statements) = [] := by
        refine List.map_eq_nil_iff.mpr (List.filter_eq_nil_iff.mpr fun d member here => ?_)
        exact declared ⟨d, member, here⟩
      rw [v.coherent.fieldAt, nothing]
      exact Nat.zero_le _

/-- Recorded requirements keep to the limit just where what is declared on every site does. -/
theorem within_iff (v : a.Valid statements) :
    a.ledger.records.Within a.setting.maxOrScopes ↔
      ∀ site : Site, site.IsRegistered a.types →
        site.listed a.setting.maxOrScopes statements ≤ a.setting.maxOrScopes := by
  constructor
  · intro within site registered
    rw [Records.within_iff] at within
    rw [← v.length_declaredAt site registered]
    cases site with
    | field typeName name =>
      obtain ⟨given, -, joined, room⟩ := v.receives_field registered
      have parts := Requirement.length_le_joinAll _ _ _ room _ List.mem_cons_self
      rw [← joined] at parts
      exact Nat.le_trans parts ((within _).2 name)
    | leaf typeName => exact (within typeName).1
    | composite typeName => exact (within (a.setting.roots.canonicalName typeName)).1
  · intro lists
    have within := v.within
    rw [v.ledger] at within ⊢
    exact Ledger.within_consolidate a.setting.maxOrScopes a.setting.roots a.types a.survey.concrete
      a.survey.ledger v.abstract_covering within v.overLimit_afterTypes (v.within_survey lists)

end Assembly.Valid

/-! ## Federations -/

namespace Batch

theorem of_isSuccess {options : BatchOptions} {subgraphs : List Subgraph}
    (success : (normalizeBatch options subgraphs).isSuccess = true) :
    (mergeAll options subgraphs).overLimit.toList = [] ∧ (mergeAll options subgraphs).failures = [] := by
  obtain ⟨w, room, -⟩ := isSuccess_iff.mp success
  exact ⟨room, failures_eq_nil_iff.mpr w.valid⟩

/-- What a federation requires keeps to the limit just where what its subgraphs require does. -/
theorem within_iff {options : BatchOptions} {subgraphs : List Subgraph}
    (success : (normalizeBatch options subgraphs).isSuccess = true) :
    (normalizeBatch options subgraphs).authorization.Within options.maxOrScopes ↔
      ∀ n ∈ normals options subgraphs, n.authorization.Within options.maxOrScopes := by
  have room := (of_isSuccess success).1
  have one : ∀ host : FederatedHost,
      (host.requirement (normalizeBatch options subgraphs).authorization).scopes.length ≤ options.maxOrScopes ↔
        ∀ n ∈ normals options subgraphs, (host.requirement n.authorization).scopes.length ≤ options.maxOrScopes := by
    intro host
    have received := (joins_mergeAll options subgraphs).receives host
    have joined : host.requirement (normalizeBatch options subgraphs).authorization = _ := received.joined
    have fits := (received.room room).2
    rw [joined]
    constructor
    · intro within n member
      -- A join has at least as many alternatives as each of its parts.
      have part := Requirement.length_le_joinAll _ _ _ fits (host.requirement n.authorization)
        (List.mem_cons_of_mem _ (List.mem_map.mpr ⟨n, member, rfl⟩))
      exact Nat.le_trans part within
    · intro within
      refine Requirement.length_joinAll_le _ _ _ fits ?_ (List.forall_mem_map.mpr within)
      cases host <;> exact Nat.zero_le _
  simp only [Records.within_iff]
  constructor
  · intro within n member typeName
    exact ⟨(one (.type typeName)).mp (within typeName).1 n member, fun name =>
      (one (.field typeName name)).mp ((within typeName).2 name) n member⟩
  · intro within typeName
    exact ⟨(one (.type typeName)).mpr fun n member => (within n member typeName).1, fun name =>
      (one (.field typeName name)).mpr fun n member => (within n member typeName).2 name⟩

end Batch

theorem within_of_result {options : NormalizationOptions} {statements : List Statement} {n : NormalSubgraph}
    (valid : (normalize options statements).result? = some n) :
    n.authorization.Within options.maxOrScopes ↔ n.ListsWithin options.maxOrScopes statements := by
  obtain ⟨clean, rfl⟩ := result_of_normalize valid
  have v := Assembly.valid_of options.subgraph options.maxOrScopes statements clean
  have within := v.within_iff
  rw [Assembly.maxOrScopes_of] at within
  exact within

/-- Where a subgraph is valid, its requirements keep to the limit just where no site lists more alternatives
than allowed in all its sightings together, and where a batch succeeds, the requirements of the federation do
just where this holds in every subgraph. -/
theorem within_limit_iff (limit : Nat) :
    (∀ (name : Option String) (fatal : Bool) (statements : List Statement) (n : NormalSubgraph),
      (normalize ⟨name, limit, fatal⟩ statements).result? = some n →
        (n.authorization.Within limit ↔ n.ListsWithin limit statements)) ∧
    ∀ (parallel : Bool) (subgraphs : List Subgraph),
      (normalizeBatch ⟨parallel, limit⟩ subgraphs).isSuccess = true →
        ((normalizeBatch ⟨parallel, limit⟩ subgraphs).authorization.Within limit ↔
          ∀ s ∈ subgraphs, ∃ n, (normalize ⟨s.name, limit, false⟩ s.statements).result? = some n ∧
            n.ListsWithin limit s.statements) := by
  refine ⟨fun name fatal statements n valid => within_of_result valid, fun parallel subgraphs success => ?_⟩
  have valid := Batch.isSome_of_failures (Batch.of_isSuccess success).2
  refine (Batch.within_iff success).trans ?_
  constructor
  · intro within s member
    obtain ⟨n, found⟩ := Option.isSome_iff_exists.mp (valid s member)
    exact ⟨n, found, (within_of_result found).mp (within n (List.mem_filterMap.mpr ⟨s, member, found⟩))⟩
  · intro lists n member
    obtain ⟨s, listed, found⟩ := List.mem_filterMap.mp member
    obtain ⟨n', found', within⟩ := lists s listed
    obtain rfl := Option.some.inj (found.symm.trans found')
    exact (within_of_result found).mpr within

/-- A subgraph whose field is declared twice, with two alternatives each time. -/
def twiceSecret : List Statement :=
  [.define (.type (secretQuery [["a"], ["b"]])), .extendType (secretQuery [["c"], ["d"]])]

theorem twiceSecret_within_four : ∃ n, (normalize ⟨none, 4, false⟩ twiceSecret).result? = some n ∧
    n.ListsWithin 4 twiceSecret := by
  have within : ((normalize ⟨none, 4, false⟩ twiceSecret).result?.any fun n =>
      n.authorization.Within 4) = true := by
    decide +kernel
  simp only [Option.any_eq_true, decide_eq_true_eq] at within
  obtain ⟨n, valid, within⟩ := within
  exact ⟨n, valid, ((within_limit_iff 4).1 _ _ _ n valid).mp within⟩

/-- Each declaration keeps to a limit of three, both together do not, and nothing is reported. -/
theorem twiceSecret_over_three :
    (∃ n, (normalize ⟨none, 3, false⟩ twiceSecret).result? = some n ∧ ¬ n.authorization.Within 3) ∧
    (normalizeBatch ⟨true, 3⟩ [⟨some "s", none, twiceSecret⟩]).isSuccess = true ∧
    ¬ (normalizeBatch ⟨true, 3⟩ [⟨some "s", none, twiceSecret⟩]).authorization.Within 3 := by
  have exceeded : ((normalize ⟨none, 3, false⟩ twiceSecret).result?.any fun n =>
      ¬ n.authorization.Within 3) = true := by
    decide +kernel
  simp only [Option.any_eq_true, decide_eq_true_eq] at exceeded
  exact ⟨exceeded, by decide +kernel, by decide +kernel⟩

end Federation
