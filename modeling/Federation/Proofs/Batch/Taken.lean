import Mathlib.Data.List.Forall2
import Mathlib.Data.List.Pairwise
import Federation.Proofs.Batch.Merging

/-!
# Fields that are taken over in a batch

The view of a federation holds exactly the subgraphs that its members hand out, the fields that they take over
from one another, and for each path the subgraphs that show a field under it which they take over.
-/

namespace Federation

namespace Batch

/-- Whether a subgraph takes a field over, where it has the given name for the type of the field. Declarations of
subgraphs that are not valid do not count. -/
def Takes (options : BatchOptions) (s : Subgraph) (t : Takeover) (localName : String) : Prop :=
  ∃ n, (outcomeOf options s).result? = some n ∧ n.roots.canonicalName localName = t.typeName ∧
    n.TakesOver s.statements t.target localName t.field

variable {options : BatchOptions} {subgraphs : List Subgraph}

theorem exists_of_forall₂ {α β : Type} {R : α → β → Prop} {as : List α} {bs : List β} (all : List.Forall₂ R as bs)
    {b : β} (member : b ∈ bs) : ∃ a ∈ as, R a b := by
  induction all with
  | nil => exact absurd member List.not_mem_nil
  | cons first _ ih =>
    rcases List.mem_cons.mp member with rfl | member
    · exact ⟨_, List.mem_cons_self, first⟩
    · obtain ⟨a, inside, related⟩ := ih member
      exact ⟨a, List.mem_cons_of_mem _ inside, related⟩

theorem takes_iff {s : Subgraph} {n : NormalSubgraph} (valid : (outcomeOf options s).result? = some n)
    {t : Takeover} {localName : String} :
    Takes options s t localName ↔ t ∈ n.overrides.takeovers ∧ n.roots.localName t.typeName = localName := by
  rw [Overrides.mem_takeovers, mem_overrides valid]
  constructor
  · rintro ⟨n', valid', canonical, takes⟩
    obtain rfl := Option.some.inj (valid.symm.trans valid')
    exact ⟨⟨localName, canonical, takes⟩, canonical ▸ localName_of_field? valid takes.1⟩
  · rintro ⟨⟨typeName, canonical, takes⟩, rfl⟩
    -- The type has one name in the subgraph, so the one that is found again is this one.
    have here : n.roots.localName t.typeName = typeName := canonical ▸ localName_of_field? valid takes.1
    exact ⟨n, valid, here.symm ▸ canonical, here.symm ▸ takes⟩

theorem path_of_takes {s : Subgraph} {n : NormalSubgraph} (valid : (outcomeOf options s).result? = some n)
    {t : Takeover} {localName : String} (takes : Takes options s t localName) :
    t.path n.roots = coordinates localName t.field :=
  congrArg (coordinates · t.field) ((takes_iff valid).mp takes).2

theorem exists_takes_iff {s : Subgraph} {n : NormalSubgraph} (valid : (outcomeOf options s).result? = some n)
    {t : Takeover} : (∃ localName, Takes options s t localName) ↔ t ∈ n.overrides.takeovers := by
  simp [takes_iff valid]

theorem exists_member_of_takes {s : Subgraph} (given : s ∈ subgraphs) {t : Takeover} {localName : String}
    (takes : Takes options s t localName) :
    ∃ n, (s, n) ∈ members options subgraphs ∧ t ∈ n.overrides.takeovers ∧
      t.path n.roots = coordinates localName t.field := by
  obtain ⟨n, valid, -⟩ := id takes
  exact ⟨n, mem_members.mpr ⟨given, valid⟩, ((takes_iff valid).mp takes).1, path_of_takes valid takes⟩

/-! ## Names -/

/-- Of subgraphs with one name there is one. -/
theorem eq_of_name (distinct : (givenNames subgraphs).Nodup) {s s' : Subgraph} (given : s ∈ subgraphs)
    (given' : s' ∈ subgraphs) {name : String} (named : s.name = some name) (named' : s'.name = some name) :
    s = s' := by
  by_contra other
  have apart : subgraphs.Pairwise fun s s' => ∀ name, s.name = some name → s'.name ≠ some name :=
    (List.pairwise_filterMap.mp distinct).imp fun differ name named named' => differ name named name named' rfl
  have symm : Std.Symm fun s s' : Subgraph => ∀ name, s.name = some name → s'.name ≠ some name :=
    ⟨fun _ _ differ name named' named => differ name named named'⟩
  exact apart.forall given given' other name named named'

theorem names_members_sublist (options : BatchOptions) (subgraphs : List Subgraph) :
    ((members options subgraphs).filterMap (·.1.name)).Sublist (givenNames subgraphs) := by
  unfold members givenNames
  rw [List.filterMap_filterMap]
  induction subgraphs with
  | nil => exact List.Sublist.slnil
  | cons s rest ih =>
    cases valid : (outcomeOf options s).result? with
    | none => cases named : s.name <;> simp [valid, named, ih, List.Sublist.cons]
    | some n => cases named : s.name <;> simp [valid, named, ih]

/-- Every subgraph has a name of its own and is valid. -/
structure WellFormed (options : BatchOptions) (subgraphs : List Subgraph) : Prop where
  named : ∀ s ∈ subgraphs, s.name.isSome = true
  distinct : (givenNames subgraphs).Nodup
  valid : ∀ s ∈ subgraphs, (outcomeOf options s).result?.isSome = true

instance : Decidable (WellFormed options subgraphs) :=
  decidable_of_iff ((∀ s ∈ subgraphs, s.name.isSome = true) ∧ (givenNames subgraphs).Nodup ∧
    ∀ s ∈ subgraphs, (outcomeOf options s).result?.isSome = true)
    ⟨fun h => ⟨h.1, h.2.1, h.2.2⟩, fun h => ⟨h.named, h.distinct, h.valid⟩⟩

namespace WellFormed

variable (w : WellFormed options subgraphs)

include w

theorem exists_name {s : Subgraph} (given : s ∈ subgraphs) : ∃ name, s.name = some name :=
  Option.isSome_iff_exists.mp (w.named s given)

theorem exists_member {s : Subgraph} (given : s ∈ subgraphs) : ∃ n, (s, n) ∈ members options subgraphs := by
  obtain ⟨n, valid⟩ := Option.isSome_iff_exists.mp (w.valid s given)
  exact ⟨n, mem_members.mpr ⟨given, valid⟩⟩

/-- Members with one name are one. -/
theorem eq_of_name {x y : Subgraph × NormalSubgraph} (first : x ∈ members options subgraphs)
    (second : y ∈ members options subgraphs) (same : x.1.name = y.1.name) : x = y := by
  obtain ⟨given, valid⟩ := mem_members.mp first
  obtain ⟨given', valid'⟩ := mem_members.mp second
  obtain ⟨name, named⟩ := w.exists_name given
  have one := Batch.eq_of_name w.distinct given given' named (same ▸ named)
  exact Prod.ext one (Option.some.inj (valid.symm.trans (one ▸ valid')))

end WellFormed

theorem nameErrors_eq_nil_iff :
    nameErrors subgraphs = [] ↔ (∀ s ∈ subgraphs, s.name.isSome = true) ∧ (givenNames subgraphs).Nodup := by
  have repeats : (OrderedSet.ofList ((OrderedSet.empty : NameSet).repeated (givenNames subgraphs))).toList.isEmpty =
      true ↔ (givenNames subgraphs).Nodup := by
    have all : (OrderedSet.empty : NameSet).repeated (givenNames subgraphs) = [] ↔ _ :=
      OrderedSet.repeated_eq_nil_iff
    simp only [OrderedSet.toList_empty, List.not_mem_nil, not_false_eq_true, implies_true, and_true] at all
    rw [← all, List.isEmpty_iff, List.eq_nil_iff_forall_not_mem, List.eq_nil_iff_forall_not_mem]
    simp only [OrderedSet.mem_ofList]
  have places : (unnamed subgraphs).isEmpty = true ↔ ∀ s ∈ subgraphs, s.name.isSome = true := by
    rw [List.isEmpty_iff, unnamed, List.filterMap_eq_nil_iff]
    constructor
    · intro none s given
      obtain ⟨x, member, rfl⟩ := List.mem_map.mp ((List.zipIdx_map_fst 0 subgraphs).symm ▸ given)
      have here := none x member
      cases named : x.1.name with
      | none => simp [named] at here
      | some name => rfl
    · intro named x member
      have given : x.1 ∈ subgraphs := List.zipIdx_map_fst 0 subgraphs ▸ List.mem_map.mpr ⟨x, member, rfl⟩
      obtain ⟨name, here⟩ := Option.isSome_iff_exists.mp (named x.1 given)
      simp [here]
  unfold nameErrors
  dsimp only
  split
  · next empty =>
    rw [Bool.and_eq_true, repeats, places] at empty
    exact iff_of_true rfl ⟨empty.2, empty.1⟩
  · next found =>
    rw [Bool.and_eq_true, repeats, places] at found
    exact iff_of_false (List.cons_ne_nil _ _) fun h => found ⟨h.2, h.1⟩

/-- A batch succeeds where its subgraphs have names of their own and are valid, no host is over the limit and no
field is contested. -/
theorem isSuccess_iff : (normalizeBatch options subgraphs).isSuccess = true ↔ WellFormed options subgraphs ∧
    (mergeAll options subgraphs).overLimit.toList = [] ∧ (mergeAll options subgraphs).contested.toList = [] := by
  have limits : ∀ m : Merger, (if m.overLimit.isEmpty then [] else
      [Error.tooManyScopes options.maxOrScopes m.overLimit.toList]) = [] ↔ m.overLimit.toList = [] := by
    intro m
    rw [← OrderedSet.isEmpty_iff]
    split <;> simp_all
  have contested : ∀ m : Merger, contestedErrors m = [] ↔ m.contested.toList = [] := by
    intro m
    unfold contestedErrors
    dsimp only
    split <;> simp_all
  simp only [BatchOutcome.isSuccess, Diagnostics.anyFatal, normalizeBatch, Bool.not_not, List.isEmpty_iff,
    List.append_eq_nil_iff, limits, contested, nameErrors_eq_nil_iff, failures_eq_nil_iff]
  constructor
  · rintro ⟨⟨⟨room, named, distinct⟩, uncontested⟩, valid⟩
    exact ⟨⟨named, distinct, valid⟩, room, uncontested⟩
  · rintro ⟨w, room, uncontested⟩
    exact ⟨⟨⟨room, w.named, w.distinct⟩, uncontested⟩, w.valid⟩

/-! ## What the view holds -/

/-- The valid subgraphs that have a name, before any field is taken from them. -/
def entered (options : BatchOptions) (subgraphs : List Subgraph) : List (String × FederatedSubgraph) :=
  (members options subgraphs).filterMap fun x => x.1.name.map (·, Merger.federated x.1 x.2)

theorem subgraphs_mergeAll (options : BatchOptions) (distinct : (givenNames subgraphs).Nodup) :
    (mergeAll options subgraphs).subgraphs.toList = entered options subgraphs := by
  have nodup := (names_members_sublist options subgraphs).nodup distinct
  refine mergeAll_induction (fun past m => m.subgraphs.toList =
      past.filterMap fun x => x.1.name.map (·, Merger.federated x.1 x.2)) rfl
    (fun _ _ _ _ _ h => h) fun past s n m reported whole _ h => ?_
  rw [(m.mergesResult_mergeResult _ _ reported s n).subgraphs, List.filterMap_append, ← h]
  cases named : s.name with
  | none => simp [named]
  | some name =>
    -- The name is new, so the entry goes to the end.
    have absent : name ∉ m.subgraphs.keys := by
      have names : m.subgraphs.keys = past.filterMap (·.1.name) := by
        rw [Table.keys, h, List.map_filterMap]
        simp [Function.comp_def]
      have before := (whole.sublist.filterMap (·.1.name)).nodup nodup
      rw [List.filterMap_append] at before
      rw [names]
      intro member
      exact (List.nodup_append.mp before).2.2 name member name (by simp [named]) rfl
    rw [Table.toList_insert_of_notMem absent]
    simp [named]

/-- The fields that are taken over from a subgraph of the batch are those on which some member says so. -/
theorem gathered_mergeAll (options : BatchOptions) (subgraphs : List Subgraph) :
    Merger.Gathered ((members options subgraphs).flatMap fun x =>
      x.2.overrides.takeovers.filter ((OrderedSet.ofList (givenNames subgraphs)).contains ·.target))
      (mergeAll options subgraphs) := by
  refine mergeAll_induction (fun past m => Merger.Gathered (past.flatMap fun x =>
      x.2.overrides.takeovers.filter ((OrderedSet.ofList (givenNames subgraphs)).contains ·.target)) m)
    ⟨by simp [Merger.empty, Overrides.fields, Table.getD], nofun⟩
    (fun _ _ _ _ _ h => ⟨h.fields, h.proper⟩) fun past s n m reported whole _ h => ?_
  have valid := (mem_members.mp (whole.subset (List.mem_append_right past List.mem_cons_self))).2
  simpa using (m.mergesResult_mergeResult options.maxOrScopes _ reported s n).gathered _ (proper_overrides valid) h

theorem mem_overrides_mergeAll {target typeName name : String} :
    name ∈ ((mergeAll options subgraphs).overrides.fields target typeName).toList ↔
      target ∈ givenNames subgraphs ∧
        ∃ s ∈ subgraphs, ∃ localName, Takes options s ⟨target, typeName, name⟩ localName := by
  rw [(gathered_mergeAll options subgraphs).fields ⟨target, typeName, name⟩]
  simp only [List.mem_flatMap, List.mem_filter, OrderedSet.contains_iff, OrderedSet.mem_ofList]
  constructor
  · rintro ⟨⟨s, n⟩, member, taken, known⟩
    obtain ⟨given, valid⟩ := mem_members.mp member
    exact ⟨known, s, given, (exists_takes_iff valid).mpr taken⟩
  · rintro ⟨known, s, given, localName, takes⟩
    obtain ⟨n, member, taken, -⟩ := exists_member_of_takes given takes
    exact ⟨(s, n), member, taken, known⟩

/-- The paths under which a member shows what it takes over, each with its name. -/
def entriesOf (x : Subgraph × NormalSubgraph) : List (String × String) :=
  x.2.overrides.takeovers.map fun t => (t.path x.2.roots, x.1.name.getD "")

/-- Where all subgraphs have names, a path is tallied once for each field that a member takes over and shows
under it. -/
theorem tallied_mergeAll (options : BatchOptions) (named : ∀ s ∈ subgraphs, s.name.isSome = true) :
    Merger.Tallied ((members options subgraphs).flatMap entriesOf) (mergeAll options subgraphs) := by
  refine mergeAll_induction (fun past m => Merger.Tallied (past.flatMap entriesOf) m)
    ⟨fun _ => rfl, fun _ => by simp [Merger.empty]⟩
    (fun _ _ _ _ _ h => ⟨h.overriders, h.contested⟩) fun past s n m reported whole called h => ?_
  have member := whole.subset (List.mem_append_right past List.mem_cons_self)
  -- What is reported of a subgraph with a name goes by that name.
  obtain ⟨name, given⟩ := Option.isSome_iff_exists.mp (named s (mem_members.mp member).1)
  obtain rfl := called name given
  simpa [given, entriesOf] using (m.mergesResult_mergeResult options.maxOrScopes _ reported s n).tallied _ h

end Batch

/-! ## A field that changes hands -/

/-- A subgraph from which a root field is taken over. -/
def givingSubgraph : Subgraph :=
  let field (name : String) : Schema.FieldDefinition := ⟨name, none, [], .named "String" false, []⟩
  ⟨some "A", none, [.define (.type ⟨"Query", none, [], .object [] [field "a", field "b"]⟩)]⟩

/-- A subgraph that takes a root field over from another, with the given name for its query type. -/
def takingSubgraph (name target typeName : String) : Subgraph :=
  let override : Schema.Directive := ⟨Vocabulary.override, [(Vocabulary.fromArgument, .string target)]⟩
  ⟨some name, none, [.define (.schema ⟨[], [(.query, typeName)]⟩),
    .define (.type ⟨typeName, none, [], .object [] [⟨"a", none, [], .named "String" false, [override]⟩]⟩)]⟩

end Federation
