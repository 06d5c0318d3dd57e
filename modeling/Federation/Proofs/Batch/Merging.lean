import Federation.Batch
import Federation.Proofs.Normalization.Override

/-!
# What a batch gathers

A batch goes through its valid subgraphs in order. Each of them adds to the view of the federation what it
hands out, component by component, and what holds after each of them holds of the whole batch.
-/

namespace Federation

/-- The path of a field under the name that a subgraph has for its type. -/
def Takeover.path (roots : RootTypes) (t : Takeover) : String :=
  coordinates (roots.localName t.typeName) t.field

namespace Merger

/-- A pass collects what its steps collect, one after the other. -/
theorem foldl_collects {α β : Type} (P : List β → Merger → Prop) (step : Merger → α → Merger) (given : α → List β)
    (xs : List α) (one : ∀ past m, ∀ x ∈ xs, P past m → P (past ++ given x) (step m x)) {past : List β} {m : Merger}
    (before : P past m) : P (past ++ xs.flatMap given) (xs.foldl step m) := by
  induction xs generalizing past m with
  | nil => simpa using before
  | cons x rest ih =>
    rw [List.flatMap_cons, ← List.append_assoc]
    exact ih (fun past m y member => one past m y (List.mem_cons_of_mem x member))
      (one past m x List.mem_cons_self before)

/-! ## Who takes a field over -/

/-- The subgraphs that take a field over are those of the given entries, each a path with a subgraph, and a
path is contested where it stands more than once. -/
structure Tallied (entries : List (String × String)) (m : Merger) : Prop where
  overriders : ∀ path, m.overriders.getD path [] = (entries.filter (·.1 = path)).map Prod.snd
  contested : ∀ path, path ∈ m.contested.toList ↔ 1 < (entries.filter (·.1 = path)).length

variable {entries : List (String × String)} {m : Merger}

theorem tallied_addOverrider (before : Tallied entries m) (subgraph path : String) :
    Tallied (entries ++ [(path, subgraph)]) (m.addOverrider subgraph path) where
  overriders other := by
    change ((m.overriders.insert path _).get? other).getD [] = _
    rw [Table.get?_insert, List.filter_append, List.map_append, ← before.overriders other]
    by_cases same : other = path
    · subst same
      simp
    · simp [same, Ne.symm same, Table.getD]
  contested other := by
    have length : (m.overriders.getD path []).length = (entries.filter (·.1 = path)).length := by
      rw [before.overriders, List.length_map]
    have old := before.contested other
    unfold addOverrider
    dsimp only
    rw [List.length_append, length, List.filter_append, List.length_append]
    by_cases same : other = path
    · subst same
      have last : ([(other, subgraph)].filter (·.1 = other)).length = 1 := by simp
      rw [last]
      split
      · next many => simpa using many
      · next few => rw [old]; rw [List.length_singleton] at few; omega
    · simp only [Ne.symm same, decide_false, Bool.false_eq_true, not_false_eq_true, List.filter_cons_of_neg,
        List.filter_nil, List.length_nil, Nat.add_zero, ← old]
      split <;> simp [same]

theorem tallied_mergeOverride (names : NameSet) (subgraph target : String) (roots : RootTypes)
    (incoming : String × NameSet) (before : Tallied entries m) :
    Tallied (entries ++ incoming.2.toList.map fun name => (coordinates (roots.localName incoming.1) name, subgraph))
      (mergeOverride names subgraph target roots m incoming) := by
  obtain ⟨canonicalName, fields⟩ := incoming
  unfold mergeOverride
  dsimp only
  have noted : ∀ m, Tallied entries m → Tallied
      (entries ++ fields.toList.map fun name => (coordinates (roots.localName canonicalName) name, subgraph))
      ((fields.toList.map (coordinates (roots.localName canonicalName))).foldl (addOverrider subgraph) m) := by
    intro m before
    have passed := foldl_collects Tallied (addOverrider subgraph) (fun path => [(path, subgraph)])
      (fields.toList.map (coordinates (roots.localName canonicalName)))
      (fun _ _ path _ before => tallied_addOverrider before subgraph path) before
    rwa [List.flatMap_map, ← List.map_eq_flatMap] at passed
  split
  · exact noted _ ⟨before.overriders, before.contested⟩
  · exact noted _ ⟨before.overriders, before.contested⟩

/-- The fields that a subgraph takes over are tallied under the names that it has for their types. -/
theorem tallied_mergeOverrides (names : NameSet) (subgraph : String) (n : NormalSubgraph)
    (before : Tallied entries m) :
    Tallied (entries ++ n.overrides.takeovers.map fun t => (t.path n.roots, subgraph))
      (m.mergeOverrides names subgraph n) := by
  have passed := foldl_collects Tallied (fun m (e : String × Table String NameSet) =>
      e.2.toList.foldl (mergeOverride names subgraph e.1 n.roots) m)
    (fun e => (Overrides.takeoversFrom e.1 e.2).map fun t => (t.path n.roots, subgraph)) n.overrides.toList
    (fun entries m e _ before => by
      have types := foldl_collects Tallied (mergeOverride names subgraph e.1 n.roots) _ e.2.toList
        (fun _ _ incoming _ before => tallied_mergeOverride names subgraph e.1 n.roots incoming before) before
      rw [Overrides.takeoversFrom, List.map_flatMap]
      simpa only [List.map_map, Function.comp_def, Takeover.path] using types)
    before
  rw [← List.map_flatMap] at passed
  exact passed

/-- The fields that are taken over are the given ones. -/
structure Gathered (taken : List Takeover) (m : Merger) : Prop where
  fields : ∀ t : Takeover, t.field ∈ (m.overrides.fields t.target t.typeName).toList ↔ t ∈ taken
  proper : m.overrides.Proper

variable {taken : List Takeover}

theorem overrides_addOverriders (subgraph : String) (paths : List String) (m : Merger) :
    (paths.foldl (addOverrider subgraph) m).overrides = m.overrides := by
  induction paths generalizing m with
  | nil => rfl
  | cons path rest ih => exact ih (m.addOverrider subgraph path)

theorem gathered_mergeOverride (names : NameSet) (subgraph target : String) (roots : RootTypes)
    (incoming : String × NameSet) (some : incoming.2.toList ≠ []) (before : Gathered taken m) :
    Gathered (taken ++ (incoming.2.toList.map (⟨target, incoming.1, ·⟩)).filter (names.contains ·.target))
      (mergeOverride names subgraph target roots m incoming) := by
  obtain ⟨canonicalName, fields⟩ := incoming
  unfold mergeOverride
  dsimp only at some ⊢
  cases known : names.contains target with
  | true =>
    refine ⟨fun t => ?_, ?_⟩
    · rw [overrides_addOverriders, if_pos rfl, Overrides.mem_fields_add, before.fields, List.mem_append]
      refine or_congr_right ?_
      obtain ⟨target', typeName, field⟩ := t
      simp only [List.mem_filter, List.mem_map, Takeover.mk.injEq]
      constructor
      · rintro ⟨rfl, rfl, member⟩
        exact ⟨⟨field, member, rfl, rfl, rfl⟩, known⟩
      · rintro ⟨⟨_, member, rfl, rfl, rfl⟩, -⟩
        exact ⟨rfl, rfl, member⟩
    · rw [overrides_addOverriders, if_pos rfl]
      exact Overrides.proper_add some before.proper
  | false =>
    refine ⟨fun t => ?_, ?_⟩
    · rw [overrides_addOverriders, if_neg Bool.false_ne_true, List.filter_map]
      simpa [Function.comp_def, known] using before.fields t
    · rw [overrides_addOverriders, if_neg Bool.false_ne_true]
      exact before.proper

/-- What a subgraph takes over from a subgraph that the batch does not have is not gathered. -/
theorem gathered_mergeOverrides (names : NameSet) (subgraph : String) (n : NormalSubgraph)
    (proper : n.overrides.Proper) (before : Gathered taken m) :
    Gathered (taken ++ n.overrides.takeovers.filter (names.contains ·.target))
      (m.mergeOverrides names subgraph n) := by
  have passed := foldl_collects Gathered (fun m (e : String × Table String NameSet) =>
      e.2.toList.foldl (mergeOverride names subgraph e.1 n.roots) m)
    (fun e => (Overrides.takeoversFrom e.1 e.2).filter (names.contains ·.target)) n.overrides.toList
    (fun taken m e member before => by
      have types := foldl_collects Gathered (mergeOverride names subgraph e.1 n.roots) _ e.2.toList
        (fun _ _ incoming listed before => gathered_mergeOverride names subgraph e.1 n.roots incoming
          (proper e.1 e.2 (Table.mem_toList.mp member) incoming.1 incoming.2 (Table.mem_toList.mp listed)) before)
        before
      rwa [← List.filter_flatMap] at types)
    before
  rw [← List.filter_flatMap] at passed
  exact passed

/-! ## One subgraph -/

/-- The requirement of a type is joined before those of its fields. -/
def mergeLevel (limit : Nat) (m : Merger) (incoming : String × Authorization.Record) : Merger :=
  let fits := (m.authorization.of incoming.1).requirement.fits limit incoming.2.requirement
  { m with
    authorization := m.authorization.update incoming.1 fun old =>
      { old with
        coversFields := old.coversFields || incoming.2.coversFields
        requirement := old.requirement.conjoin limit incoming.2.requirement }
    overLimit := if fits then m.overLimit else m.overLimit.insert incoming.1 }

theorem mergeRecord_eq (limit : Nat) (m : Merger) (incoming : String × Authorization.Record) :
    m.mergeRecord limit incoming =
      incoming.2.fields.toList.foldl (mergeField limit incoming.1) (mergeLevel limit m incoming) := rfl

theorem foldl_keeps {α β : Type} (view : Merger → β) (step : Merger → α → Merger)
    (one : ∀ m x, view (step m x) = view m) (xs : List α) (m : Merger) : view (xs.foldl step m) = view m :=
  List.foldlRecOn (motive := fun m' => view m' = view m) xs step rfl fun m' same x _ => (one m' x).trans same

/-- Everything but the requirements. -/
def besideRecords (m : Merger) : Merger := { m with authorization := .empty, overLimit := .empty }

theorem besideRecords_mergeRecords (limit : Nat) (records : List (String × Authorization.Record)) (m : Merger) :
    (records.foldl (mergeRecord limit) m).besideRecords = m.besideRecords :=
  foldl_keeps besideRecords (mergeRecord limit) (fun m record =>
    foldl_keeps besideRecords (mergeField limit record.1) (fun _ _ => rfl) record.2.fields.toList
      (mergeLevel limit m record)) records m

/-- Everything but what is said of overrides. -/
def besideOverrides (m : Merger) : Merger :=
  { m with overrides := .empty, overriders := .empty, contested := .empty, warnings := [] }

theorem besideOverrides_mergeOverrides (names : NameSet) (subgraph : String) (n : NormalSubgraph) (m : Merger) :
    (m.mergeOverrides names subgraph n).besideOverrides = m.besideOverrides := by
  refine foldl_keeps besideOverrides _ (fun m e => foldl_keeps besideOverrides _ (fun m incoming => ?_) _ m) _ m
  refine (foldl_keeps besideOverrides (addOverrider subgraph) (fun _ _ => rfl) _ _).trans ?_
  split <;> rfl

/-- Adds the concrete types of one abstract type. -/
def addConcrete (concrete : ConcreteTypes) (incoming : String × NameSet) : ConcreteTypes :=
  Table.upsert concrete incoming.1 fun old => (old.getD .empty).union incoming.2

theorem mergeConcretes_eq (incoming : List (String × NameSet)) (m : Merger) :
    incoming.foldl mergeConcrete m = { m with concreteTypes := incoming.foldl addConcrete m.concreteTypes } := by
  induction incoming generalizing m with
  | nil => rfl
  | cons e rest ih => exact ih (m.mergeConcrete e)

/-- Adds what is said of one entity. -/
def addEntity (entities : Table String Router.Entity) (incoming : String × Router.Entity) :
    Table String Router.Entity :=
  entities.upsert incoming.1 fun
    | none => incoming.2
    | some old => old.union incoming.2

theorem mergeEntities_eq (incoming : List (String × Router.Entity)) (m : Merger) :
    incoming.foldl mergeEntity m = { m with entities := incoming.foldl addEntity m.entities } := by
  induction incoming generalizing m with
  | nil => rfl
  | cons e rest ih => exact ih (m.mergeEntity e)

/-- A valid subgraph as it is handed out before fields are taken from it. -/
def federated (given : Subgraph) (n : NormalSubgraph) : FederatedSubgraph :=
  { url := given.url, normal := n, configuration := n.configuration, overriddenFields := .empty }

/-- What one valid subgraph adds, component by component. -/
structure MergesResult (limit : Nat) (names : NameSet) (reported : String) (given : Subgraph) (n : NormalSubgraph)
    (m m' : Merger) : Prop where
  authorization : m'.authorization = (n.authorization.toList.foldl (mergeRecord limit) m).authorization
  overLimit : m'.overLimit = (n.authorization.toList.foldl (mergeRecord limit) m).overLimit
  failures : m'.failures = m.failures
  subgraphs : m'.subgraphs = match given.name with
    | none => m.subgraphs
    | some name => m.subgraphs.insert name (federated given n)
  concreteTypes : m'.concreteTypes = n.concreteTypes.toList.foldl addConcrete m.concreteTypes
  entities : m'.entities = n.entities.toList.foldl addEntity m.entities
  tallied : ∀ entries, Tallied entries m →
    Tallied (entries ++ n.overrides.takeovers.map fun t => (t.path n.roots, reported)) m'
  gathered : ∀ taken, n.overrides.Proper → Gathered taken m →
    Gathered (taken ++ n.overrides.takeovers.filter (names.contains ·.target)) m'

theorem mergesResult_mergeResult (limit : Nat) (names : NameSet) (reported : String) (given : Subgraph)
    (n : NormalSubgraph) (m : Merger) :
    MergesResult limit names reported given n m (m.mergeResult limit names reported given n) := by
  have records := besideRecords_mergeRecords limit n.authorization.toList m
  unfold mergeResult
  dsimp only
  rw [mergeConcretes_eq, mergeEntities_eq]
  dsimp only
  generalize given' : n.authorization.toList.foldl (mergeRecord limit) m = m₁ at records ⊢
  have failures : m₁.failures = m.failures := (congrArg Merger.failures records :)
  have subgraphs : m₁.subgraphs = m.subgraphs := (congrArg Merger.subgraphs records :)
  have concrete : m₁.concreteTypes = m.concreteTypes := (congrArg Merger.concreteTypes records :)
  have entities : m₁.entities = m.entities := (congrArg Merger.entities records :)
  have overrides : m₁.overrides = m.overrides := (congrArg Merger.overrides records :)
  have overriders : m₁.overriders = m.overriders := (congrArg Merger.overriders records :)
  have contested : m₁.contested = m.contested := (congrArg Merger.contested records :)
  generalize before : ({ m₁ with
    concreteTypes := n.concreteTypes.toList.foldl addConcrete m₁.concreteTypes
    entities := n.entities.toList.foldl addEntity m₁.entities } : Merger) = m₂
  -- The subgraph itself is entered last, so that the rest is the same with and without a name.
  have merged : MergesResult limit names reported { given with name := none } n m
      (m₂.mergeOverrides names reported n) := by
    have aside := besideOverrides_mergeOverrides names reported n m₂
    subst given' before
    refine ⟨?_, ?_, ?_, ?_, ?_, ?_, fun entries h => ?_, fun taken proper h => ?_⟩
    · exact (congrArg Merger.authorization aside :)
    · exact (congrArg Merger.overLimit aside :)
    · exact (congrArg Merger.failures aside :).trans failures
    · exact (congrArg Merger.subgraphs aside :).trans subgraphs
    · rw [← concrete]
      exact (congrArg Merger.concreteTypes aside :)
    · rw [← entities]
      exact (congrArg Merger.entities aside :)
    · exact tallied_mergeOverrides names reported n ⟨overriders ▸ h.overriders, contested ▸ h.contested⟩
    · exact gathered_mergeOverrides names reported n proper ⟨overrides ▸ h.fields, overrides ▸ h.proper⟩
  cases named : given.name with
  | none => exact { merged with subgraphs := by rw [named]; exact merged.subgraphs }
  | some name =>
    refine ⟨merged.authorization, merged.overLimit, merged.failures, ?_, merged.concreteTypes, merged.entities,
      fun entries h => ?_, fun taken proper h => ?_⟩
    · rw [named]
      exact congrArg (Table.insert · name (federated given n)) merged.subgraphs
    · exact ⟨(merged.tallied entries h).overriders, (merged.tallied entries h).contested⟩
    · exact ⟨(merged.gathered taken proper h).fields, (merged.gathered taken proper h).proper⟩

end Merger

/-! ## The whole batch -/

namespace Batch

/-- What the normalization of one subgraph of a batch comes to. -/
def outcomeOf (options : BatchOptions) (s : Subgraph) : Outcome :=
  normalize ⟨s.name, options.maxOrScopes, false⟩ s.statements

/-- Adds one subgraph of a batch. -/
def step (options : BatchOptions) (names : NameSet) (m : Merger)
    (x : (Subgraph × Outcome × Membership.Recording) × Nat) : Merger :=
  m.merge options.maxOrScopes names x.2 x.1.1 x.1.2.1 x.1.2.2

/-- The valid subgraphs of a batch, in order. -/
def normals (options : BatchOptions) (subgraphs : List Subgraph) : List NormalSubgraph :=
  subgraphs.filterMap fun s => (outcomeOf options s).result?

/-- The valid subgraphs of a batch, each with what its normalization comes to. -/
def members (options : BatchOptions) (subgraphs : List Subgraph) : List (Subgraph × NormalSubgraph) :=
  subgraphs.filterMap fun s => (outcomeOf options s).result?.map (s, ·)

variable {options : BatchOptions} {subgraphs : List Subgraph}

theorem mem_members {x : Subgraph × NormalSubgraph} :
    x ∈ members options subgraphs ↔ x.1 ∈ subgraphs ∧ (outcomeOf options x.1).result? = some x.2 := by
  simp only [members, List.mem_filterMap, Option.map_eq_some_iff]
  constructor
  · rintro ⟨s, member, n, found, rfl⟩
    exact ⟨member, found⟩
  · rintro ⟨member, found⟩
    exact ⟨x.1, member, x.2, found, rfl⟩

theorem map_members : (members options subgraphs).map Prod.snd = normals options subgraphs := by
  simp [members, normals, List.map_filterMap, Option.map_map, Function.comp_def]

/-- What holds at the start, and is kept by what is noted beside the subgraphs and by each valid subgraph in
turn, holds of the whole batch. -/
theorem mergeAll_induction (P : List (Subgraph × NormalSubgraph) → Merger → Prop) (start : P [] .empty)
    (beside : ∀ past (m : Merger) graph warnings failures, P past m → P past { m with graph, warnings, failures })
    (next : ∀ past s n m reported, past ++ [(s, n)] <+: members options subgraphs →
      (∀ name, s.name = some name → reported = name) → P past m →
        P (past ++ [(s, n)]) (m.mergeResult options.maxOrScopes (OrderedSet.ofList (givenNames subgraphs))
          reported s n)) :
    P (members options subgraphs) (mergeAll options subgraphs) := by
  -- What was merged and what is left make up the members at every step. A subgraph that is not valid counts for
  -- neither.
  have fold : ∀ (rest : List Subgraph) (index : Nat) (past : List (Subgraph × NormalSubgraph)) (m : Merger),
      past ++ members options rest = members options subgraphs → P past m →
        P (past ++ members options rest) (((normalizeEach options rest).zipIdx index).foldl
          (step options (OrderedSet.ofList (givenNames subgraphs))) m) := by
    intro rest
    induction rest with
    | nil => exact fun index past m _ h => by simpa [members, normalizeEach] using h
    | cons s rest ih =>
      intro index past m whole h
      change P _ (List.foldl _ (step options _ m ((s, outcomeOf options s, _), index)) _)
      unfold step Merger.merge
      dsimp only
      cases found : (outcomeOf options s).result? with
      | none =>
        have same : members options (s :: rest) = members options rest := by
          simp [members, found]
        rw [same] at whole ⊢
        exact ih (index + 1) past _ whole (beside past m _ _ _ h)
      | some n =>
        have parts : members options (s :: rest) = (s, n) :: members options rest := by
          simp [members, found]
        rw [parts, List.append_cons] at whole ⊢
        refine ih (index + 1) _ _ whole (next past s n _ _ ⟨_, whole⟩ ?_ (beside past m _ _ m.failures h))
        intro name named
        rw [named]
        rfl
  exact fold subgraphs 0 [] .empty rfl start

theorem failures_step (options : BatchOptions) (names : NameSet) (m : Merger)
    (x : (Subgraph × Outcome × Membership.Recording) × Nat) :
    (step options names m x).failures = [] ↔ m.failures = [] ∧ x.1.2.1.result?.isSome = true := by
  unfold step Merger.merge
  dsimp only
  cases x.1.2.1.result? with
  | none => simp
  | some n =>
    have merged := fun m => Merger.mergesResult_mergeResult options.maxOrScopes names
      (x.1.1.name.getD (reportedName x.2)) x.1.1 n m
    simp [(merged _).failures]

/-- Nothing fails just where every subgraph is valid. -/
theorem failures_eq_nil_iff : (mergeAll options subgraphs).failures = [] ↔
    ∀ s ∈ subgraphs, (outcomeOf options s).result?.isSome = true := by
  have fold : ∀ (rest : List Subgraph) (index : Nat) (m : Merger),
      (((normalizeEach options rest).zipIdx index).foldl
        (step options (OrderedSet.ofList (givenNames subgraphs))) m).failures = [] ↔
          m.failures = [] ∧ ∀ s ∈ rest, (outcomeOf options s).result?.isSome = true := by
    intro rest
    induction rest with
    | nil => simp [normalizeEach]
    | cons s rest ih =>
      intro index m
      have parts : (normalizeEach options (s :: rest)).zipIdx index =
          ((s, normalizeInto ⟨s.name, options.maxOrScopes, false⟩ s.statements Membership.Recording.empty), index) ::
            (normalizeEach options rest).zipIdx (index + 1) := rfl
      rw [parts, List.foldl_cons, ih, failures_step, List.forall_mem_cons, and_assoc]
      rfl
  exact (fold subgraphs 0 .empty).trans (and_iff_right rfl)

theorem isSome_of_failures (clean : (mergeAll options subgraphs).failures = []) :
    ∀ s ∈ subgraphs, (outcomeOf options s).result?.isSome = true :=
  failures_eq_nil_iff.mp clean

end Batch

end Federation
