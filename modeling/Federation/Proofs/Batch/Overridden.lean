import Federation.Proofs.Batch.Taken

/-!
# What a batch hands out

If anything goes wrong in a batch, its subgraphs are handed out as they are on their own. Otherwise the fields that
are taken over from a subgraph leave its configuration, and nothing else changes.
-/

namespace Federation

/-- What becomes of a configuration from which fields of some types are taken. -/
structure Router.Relieved (taken : String → String → Prop) (before after : Table String Router.Configuration) :
    Prop where
  /-- No type is added, and those that are left keep their order. -/
  ordered : after.keys.Sublist before.keys
  untouched : ∀ typeName, (∀ name, ¬ taken typeName name) → after.get? typeName = before.get? typeName
  /-- A type from which fields are taken keeps the others, and leaves the configuration if there are none. -/
  relieved : ∀ typeName c, before.get? typeName = some c → (∃ name, taken typeName name) →
    ∃ kept : NameSet, kept.toList.Sublist c.fieldNames.toList ∧
      (∀ name, name ∈ kept.toList ↔ name ∈ c.fieldNames.toList ∧ ¬ taken typeName name) ∧
      after.get? typeName = if kept.toList = [] then none else some { c with fieldNames := kept }

/-- What a batch hands out for a valid subgraph from which fields of some types are taken. -/
structure FederatedSubgraph.HandsOut (given : Subgraph) (n : NormalSubgraph) (taken : String → String → Prop)
    (e : FederatedSubgraph) : Prop where
  url : e.url = given.url
  normal : e.normal = n
  configuration : Router.Relieved taken n.configuration e.configuration
  overridden : ∀ typeName, typeName ∈ e.overriddenFields.keys ↔ ∃ name, taken typeName name
  exact : ∀ typeName names, e.overriddenFields.get? typeName = some names →
    ∀ name, name ∈ names.toList ↔ taken typeName name

namespace Batch

/-- Whether some subgraph of a batch takes a field over from the subgraph of the given name. -/
def Taken (options : BatchOptions) (subgraphs : List Subgraph) (target typeName name : String) : Prop :=
  ∃ s ∈ subgraphs, ∃ localName, Takes options s ⟨target, typeName, name⟩ localName

variable {options : BatchOptions} {subgraphs : List Subgraph}

/-! ## Taking fields from a configuration -/

theorem get?_withoutFields (configuration : Table String Router.Configuration) (types : Table String NameSet)
    (typeName : String) :
    (withoutFields configuration types).get? typeName = (configuration.get? typeName).bind fun c =>
      match types.get? typeName with
      | none => some c
      | some fields =>
        if (c.fieldNames.filter (!fields.contains ·)).isEmpty then none
        else some { c with fieldNames := c.fieldNames.filter (!fields.contains ·) } :=
  Table.get?_filterMap configuration _ typeName

theorem relieved_withoutFields {taken : String → String → Prop} (configuration : Table String Router.Configuration)
    {types : Table String NameSet} (keys : ∀ typeName, typeName ∈ types.keys ↔ ∃ name, taken typeName name)
    (exact : ∀ typeName names, types.get? typeName = some names → ∀ name, name ∈ names.toList ↔ taken typeName name) :
    Router.Relieved taken configuration (withoutFields configuration types) where
  ordered := Table.keys_filterMap_sublist configuration _
  untouched typeName nothing := by
    have absent : types.get? typeName = none := by
      rw [Table.get?_eq_none_iff, keys]
      exact fun ⟨name, taken⟩ => nothing name taken
    rw [get?_withoutFields, absent]
    cases configuration.get? typeName <;> rfl
  relieved typeName c known some := by
    obtain ⟨names, listed⟩ := Table.exists_get?_of_mem_keys ((keys typeName).mpr some)
    refine ⟨c.fieldNames.filter (!names.contains ·), List.filter_sublist, fun name => ?_, ?_⟩
    -- A field stays where it is not among those that are taken.
    · rw [← exact typeName names listed name, ← OrderedSet.contains_iff (s := names)]
      simp
    · rw [get?_withoutFields, known, listed]
      simp only [Option.bind_some, OrderedSet.isEmpty_iff]

/-! ## Taking fields from subgraphs -/

/-- What is taken over from a subgraph, by type. -/
def takenFrom (overrides : Overrides) (target : String) : Table String NameSet := Table.getD overrides target .empty

theorem withoutFields_empty (configuration : Table String Router.Configuration) :
    withoutFields configuration .empty = configuration := by
  refine Table.ext ?_
  simp [withoutFields, Table.filterMap]

/-- A subgraph without the fields that are taken over from it. -/
def released (overrides : Overrides) (name : String) (e : FederatedSubgraph) : FederatedSubgraph :=
  { e with
    configuration := withoutFields e.configuration (takenFrom overrides name)
    overriddenFields := takenFrom overrides name }

theorem applyOverrides_eq (subgraphs : Table String FederatedSubgraph) (overrides : Overrides)
    (fresh : ∀ e ∈ subgraphs.toList, e.2.overriddenFields = .empty) :
    applyOverrides subgraphs overrides = subgraphs.map (released overrides) := by
  refine Table.ext (List.map_congr_left fun e member => congrArg (Prod.mk e.1) ?_)
  -- Where nothing is taken from a subgraph it is left alone, and it had no overridden fields before.
  obtain ⟨name, s⟩ := e
  have fresh := fresh (name, s) member
  dsimp only at fresh ⊢
  unfold released takenFrom Table.getD
  cases Table.get? overrides name with
  | none =>
    dsimp only [Option.getD_none]
    rw [withoutFields_empty, ← fresh]
  | some types => rfl

theorem mem_keys_takenFrom {overrides : Overrides} (proper : overrides.Proper) {target typeName : String} :
    typeName ∈ (takenFrom overrides target).keys ↔ ∃ name, name ∈ (overrides.fields target typeName).toList := by
  simp only [Overrides.mem_fields]
  unfold takenFrom Table.getD
  constructor
  · intro member
    cases found : Table.get? overrides target with
    | none => simp [found, Table.keys] at member
    | some types =>
      rw [found] at member
      obtain ⟨names, listed⟩ := Table.exists_get?_of_mem_keys member
      obtain ⟨name, inside⟩ := List.exists_mem_of_ne_nil _ (proper target types found typeName names listed)
      exact ⟨name, types, rfl, names, listed, inside⟩
  · rintro ⟨name, types, found, names, listed, -⟩
    rw [found]
    exact Table.mem_keys_of_get? listed

section Known

variable {target : String} (known : target ∈ givenNames subgraphs)

include known

theorem mem_fields_mergeAll {typeName name : String} :
    name ∈ ((mergeAll options subgraphs).overrides.fields target typeName).toList ↔
      Taken options subgraphs target typeName name :=
  mem_overrides_mergeAll.trans (and_iff_right known)

theorem mem_keys_takenFrom_mergeAll {typeName : String} :
    typeName ∈ (takenFrom (mergeAll options subgraphs).overrides target).keys ↔
      ∃ name, Taken options subgraphs target typeName name := by
  rw [mem_keys_takenFrom (gathered_mergeAll options subgraphs).proper]
  exact exists_congr fun name => mem_fields_mergeAll known

/-- From a subgraph of the batch is taken what some subgraph takes over from it. -/
theorem mem_takenFrom_mergeAll {typeName : String} {names : NameSet}
    (listed : (takenFrom (mergeAll options subgraphs).overrides target).get? typeName = some names) {name : String} :
    name ∈ names.toList ↔ Taken options subgraphs target typeName name := by
  rw [← mem_fields_mergeAll known]
  unfold takenFrom at listed
  rw [Overrides.fields, Table.getD, listed]
  rfl

end Known

/-! ## The whole batch -/

/-- The entry of a subgraph before any field is taken from it. -/
def Enters (options : BatchOptions) (s : Subgraph) (e : String × FederatedSubgraph) : Prop :=
  s.name = some e.1 ∧ ∃ n, (outcomeOf options s).result? = some n ∧ e.2 = Merger.federated s n

theorem mem_entered {e : String × FederatedSubgraph} :
    e ∈ entered options subgraphs ↔ ∃ s ∈ subgraphs, Enters options s e := by
  simp only [entered, List.mem_filterMap, Option.map_eq_some_iff, Prod.exists, mem_members]
  constructor
  · rintro ⟨s, n, ⟨given, valid⟩, name, named, rfl⟩
    exact ⟨s, given, named, n, valid, rfl⟩
  · rintro ⟨s, given, named, n, valid, made⟩
    exact ⟨s, n, ⟨given, valid⟩, e.1, named, by rw [← made]⟩

/-- The subgraphs enter in the order in which they are given. -/
theorem forall₂_enters (w : WellFormed options subgraphs) :
    List.Forall₂ (fun s e => s ∈ subgraphs ∧ Enters options s e) subgraphs (entered options subgraphs) := by
  -- The induction goes over a rest of the subgraphs, while names and validity are known for all of them.
  have each : ∀ rest : List Subgraph, (∀ s ∈ rest, s ∈ subgraphs) →
      List.Forall₂ (fun s e => s ∈ subgraphs ∧ Enters options s e) rest (entered options rest) := by
    intro rest
    induction rest with
    | nil => exact fun _ => .nil
    | cons s rest ih =>
      intro inside
      have given := inside s List.mem_cons_self
      obtain ⟨name, named⟩ := w.exists_name given
      obtain ⟨n, member⟩ := w.exists_member given
      have valid := (mem_members.mp member).2
      have parts : members options (s :: rest) = (s, n) :: members options rest := by simp [members, valid]
      rw [entered, parts, List.filterMap_cons]
      simp only [named, Option.map_some]
      exact .cons ⟨given, named, n, valid, rfl⟩ (ih fun s member => inside s (List.mem_cons_of_mem _ member))
  exact each subgraphs fun _ given => given

theorem handsOut_of_enters {s : Subgraph} {e : String × FederatedSubgraph} (given : s ∈ subgraphs)
    (enters : Enters options s e) : ∃ n, (outcomeOf options s).result? = some n ∧
      FederatedSubgraph.HandsOut s n (Taken options subgraphs e.1)
        (released (mergeAll options subgraphs).overrides e.1 e.2) := by
  obtain ⟨named, n, valid, made⟩ := enters
  have known : e.1 ∈ givenNames subgraphs := List.mem_filterMap.mpr ⟨s, given, named⟩
  have exact : ∀ typeName names, (takenFrom (mergeAll options subgraphs).overrides e.1).get? typeName = some names →
      ∀ name, name ∈ names.toList ↔ Taken options subgraphs e.1 typeName name :=
    fun _ _ listed _ => mem_takenFrom_mergeAll known listed
  have keys : ∀ typeName, typeName ∈ (takenFrom (mergeAll options subgraphs).overrides e.1).keys ↔
      ∃ name, Taken options subgraphs e.1 typeName name := fun _ => mem_keys_takenFrom_mergeAll known
  rw [made]
  exact ⟨n, valid, rfl, rfl, relieved_withoutFields n.configuration keys exact, keys, exact⟩

theorem subgraphs_of_failure (failed : (normalizeBatch options subgraphs).isSuccess = false) :
    (normalizeBatch options subgraphs).subgraphs = (mergeAll options subgraphs).subgraphs := by
  simp only [BatchOutcome.isSuccess, Diagnostics.anyFatal, normalizeBatch, Bool.not_not] at failed ⊢
  rw [failed]
  rfl

theorem subgraphs_of_success (success : (normalizeBatch options subgraphs).isSuccess = true) :
    (normalizeBatch options subgraphs).subgraphs =
      (mergeAll options subgraphs).subgraphs.map (released (mergeAll options subgraphs).overrides) := by
  have distinct := (isSuccess_iff.mp success).1.distinct
  have fresh : ∀ e ∈ (mergeAll options subgraphs).subgraphs.toList, e.2.overriddenFields = .empty := by
    intro e member
    rw [subgraphs_mergeAll options distinct] at member
    obtain ⟨s, -, -, n, -, made⟩ := mem_entered.mp member
    rw [made]
    rfl
  rw [← applyOverrides_eq _ _ fresh]
  simp only [BatchOutcome.isSuccess, Diagnostics.anyFatal, normalizeBatch, Bool.not_not] at success ⊢
  rw [success]
  rfl

/-- A batch that succeeds hands out all its subgraphs in the order in which they are given. -/
theorem forall₂_handsOut (success : (normalizeBatch options subgraphs).isSuccess = true) :
    List.Forall₂ (fun s e => s.name = some e.1 ∧ ∃ n, (outcomeOf options s).result? = some n ∧
      FederatedSubgraph.HandsOut s n (Taken options subgraphs e.1) e.2) subgraphs
      (normalizeBatch options subgraphs).subgraphs.toList := by
  have w := (isSuccess_iff.mp success).1
  have entries : (normalizeBatch options subgraphs).subgraphs.toList = List.map (fun e : String × FederatedSubgraph =>
      (e.1, released (mergeAll options subgraphs).overrides e.1 e.2)) (entered options subgraphs) := by
    rw [subgraphs_of_success success, ← subgraphs_mergeAll options w.distinct]
    rfl
  rw [entries, List.forall₂_map_right_iff]
  exact (forall₂_enters w).imp fun s e ⟨given, enters⟩ => ⟨enters.1, handsOut_of_enters given enters⟩

end Batch

open Batch

/-- Where something goes wrong in a batch whose subgraphs have names of their own, its valid subgraphs are handed out
as they are on their own. Otherwise all are, in the order in which they are given, and from each exactly the fields
are taken that some subgraph takes over from it. -/
theorem overrides_applied {options : BatchOptions} {subgraphs : List Subgraph}
    (distinct : (givenNames subgraphs).Nodup) :
    ((normalizeBatch options subgraphs).isSuccess = false →
      ∀ e, e ∈ (normalizeBatch options subgraphs).subgraphs.toList ↔ ∃ s ∈ subgraphs, s.name = some e.1 ∧
        ∃ n, (outcomeOf options s).result? = some n ∧
          e.2 = { url := s.url, normal := n, configuration := n.configuration, overriddenFields := .empty }) ∧
    ((normalizeBatch options subgraphs).isSuccess = true →
      List.Forall₂ (fun s e => s.name = some e.1 ∧ ∃ n, (outcomeOf options s).result? = some n ∧
        FederatedSubgraph.HandsOut s n (Taken options subgraphs e.1) e.2) subgraphs
        (normalizeBatch options subgraphs).subgraphs.toList) := by
  refine ⟨fun failed e => ?_, forall₂_handsOut⟩
  rw [subgraphs_of_failure failed, subgraphs_mergeAll options distinct]
  exact mem_entered

/-- A batch in which a field changes hands, and one in which two subgraphs want it. -/
theorem overrides_applied_taking :
    ((normalizeBatch .default [givingSubgraph, takingSubgraph "B" "A" "Query"]).isSuccess = true ∧
      List.Forall₂ (fun s e => s.name = some e.1 ∧ ∃ n, (outcomeOf .default s).result? = some n ∧
          FederatedSubgraph.HandsOut s n (Taken .default [givingSubgraph, takingSubgraph "B" "A" "Query"] e.1) e.2)
        [givingSubgraph, takingSubgraph "B" "A" "Query"]
        (normalizeBatch .default [givingSubgraph, takingSubgraph "B" "A" "Query"]).subgraphs.toList) ∧
    (normalizeBatch .default
        [givingSubgraph, takingSubgraph "B" "A" "Query", takingSubgraph "C" "A" "Query"]).isSuccess = false ∧
      ∀ e, e ∈ (normalizeBatch .default
          [givingSubgraph, takingSubgraph "B" "A" "Query", takingSubgraph "C" "A" "Query"]).subgraphs.toList ↔
        ∃ s ∈ [givingSubgraph, takingSubgraph "B" "A" "Query", takingSubgraph "C" "A" "Query"],
          s.name = some e.1 ∧ ∃ n, (outcomeOf .default s).result? = some n ∧
            e.2 = { url := s.url, normal := n, configuration := n.configuration, overriddenFields := .empty } := by
  have moved : (normalizeBatch .default [givingSubgraph, takingSubgraph "B" "A" "Query"]).isSuccess = true := by
    decide +kernel
  have refused : (normalizeBatch .default
      [givingSubgraph, takingSubgraph "B" "A" "Query", takingSubgraph "C" "A" "Query"]).isSuccess = false := by
    decide +kernel
  exact ⟨⟨moved, (overrides_applied (by decide)).2 moved⟩, refused, (overrides_applied (by decide)).1 refused⟩

end Federation
