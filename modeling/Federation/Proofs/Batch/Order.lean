import Federation.Proofs.Batch.Contested
import Federation.Proofs.Batch.Overridden
import Federation.Proofs.Batch.Requirements

/-!
# The order of the subgraphs of a batch

A batch goes through its subgraphs one after the other, but what it says in the end does not depend on their order,
except for the order in which it says it: tables are compared key by key, and sets by their members.
-/

namespace Federation

open Authorization

/-- Two sets with the same members. -/
def OrderedSet.SameMembers {α : Type} (s t : OrderedSet α) : Prop := s.toList.Perm t.toList

theorem OrderedSet.sameMembers_iff {α : Type} {s t : OrderedSet α} :
    s.SameMembers t ↔ ∀ a, a ∈ s.toList ↔ a ∈ t.toList :=
  List.perm_ext_iff_of_nodup s.nodup t.nodup

namespace Table

variable {κ β γ : Type} [DecidableEq κ]

/-- Two tables with the same keys, up to order, and related values. -/
structure Agree (R : β → β → Prop) (t u : Table κ β) : Prop where
  keys : t.keys.Perm u.keys
  values : ∀ k v w, t.get? k = some v → u.get? k = some w → R v w

/-- Whether what a table has under a key has a property. -/
def Holds (t : Table κ β) (k : κ) (P : β → Prop) : Prop := ∃ v ∈ t.get? k, P v

variable {t u : Table κ β} {k : κ} {P : β → Prop}

theorem holds_iff {v : β} (found : t.get? k = some v) : t.Holds k P ↔ P v := by
  simp [Holds, found]

theorem holds_iff_mem_keys : (t.Holds k fun _ => True) ↔ k ∈ t.keys := by
  rw [← get?_isSome_iff, Option.isSome_iff_exists]
  simp [Holds]

theorem exists_mem_toList_iff : (∃ e ∈ t.toList, e.1 = k ∧ P e.2) ↔ t.Holds k P := by
  constructor
  · rintro ⟨⟨_, v⟩, member, rfl, holds⟩
    exact ⟨v, mem_toList.mp member, holds⟩
  · rintro ⟨v, found, holds⟩
    exact ⟨(k, v), mem_toList.mpr found, rfl, holds⟩

/-- Where a value takes the place of another that it adds to, the properties are those of either. -/
theorem holds_upsert (f : Option β → β) (v : β) (k' : κ) (adds : ∀ old, P (f old) ↔ (∃ o ∈ old, P o) ∨ P v) :
    (t.upsert k' f).Holds k P ↔ t.Holds k P ∨ (k' = k ∧ P v) := by
  unfold Holds
  rw [get?_upsert]
  by_cases same : k = k'
  · subst same
    simpa using adds (t.get? k)
  · simp [same, Ne.symm same]

theorem holds_foldl {add : Table κ β → κ × β → Table κ β}
    (one : ∀ t e, (add t e).Holds k P ↔ t.Holds k P ∨ (e.1 = k ∧ P e.2)) (entries : List (κ × β)) (t : Table κ β) :
    (entries.foldl add t).Holds k P ↔ t.Holds k P ∨ ∃ e ∈ entries, e.1 = k ∧ P e.2 := by
  induction entries generalizing t with
  | nil => simp
  | cons e rest ih => rw [List.foldl_cons, ih, one, or_assoc, List.exists_mem_cons_iff]

/-- Tables that hold the same members of some set under a key have the same set there. -/
theorem sameMembers_of_holds {α : Type} (view : β → OrderedSet α)
    (alike : ∀ a, (t.Holds k fun v => a ∈ (view v).toList) ↔ u.Holds k fun v => a ∈ (view v).toList) {v w : β}
    (found : t.get? k = some v) (found' : u.get? k = some w) : (view v).SameMembers (view w) := by
  refine OrderedSet.sameMembers_iff.mpr fun a => ?_
  have members := alike a
  rwa [holds_iff found, holds_iff found'] at members

namespace Agree

variable {R : β → β → Prop}

theorem of_keys (keys : ∀ k, k ∈ t.keys ↔ k ∈ u.keys)
    (values : ∀ k v w, t.get? k = some v → u.get? k = some w → R v w) : t.Agree R u :=
  ⟨(List.perm_ext_iff_of_nodup t.nodup_keys u.nodup_keys).mpr keys, values⟩

theorem of_holds (keys : ∀ k, (t.Holds k fun _ => True) ↔ u.Holds k fun _ => True)
    (values : ∀ k v w, t.get? k = some v → u.get? k = some w → R v w) : t.Agree R u :=
  of_keys (fun k => by rw [← holds_iff_mem_keys, ← holds_iff_mem_keys, keys]) values

theorem of_perm (refl : ∀ v, R v v) (perm : t.toList.Perm u.toList) : t.Agree R u := by
  refine ⟨perm.map Prod.fst, fun k v w found found' => ?_⟩
  have member := perm.mem_iff.mp (mem_toList.mpr found)
  obtain rfl := Option.some.inj ((mem_toList.mp member).symm.trans found')
  exact refl v

theorem map {S : γ → γ → Prop} {f g : κ → β → γ} (agree : t.Agree R u)
    (related : ∀ k v w, k ∈ t.keys → R v w → S (f k v) (g k w)) : (t.map f).Agree S (u.map g) := by
  refine ⟨by rw [keys_map, keys_map]; exact agree.keys, fun k v w found found' => ?_⟩
  rw [get?_map, Option.map_eq_some_iff] at found found'
  obtain ⟨v', found, rfl⟩ := found
  obtain ⟨w', found', rfl⟩ := found'
  exact related k v' w' (mem_keys_of_get? found) (agree.values k v' w' found found')

end Agree

end Table

/-- Two descriptions of an entity that differ in order only. -/
structure Router.Entity.SameUpToOrder (a b : Router.Entity) : Prop where
  keyFieldSets : a.keyFieldSets.SameMembers b.keyFieldSets
  subgraphs : a.subgraphs.SameMembers b.subgraphs

/-- Two subgraphs that come out of a batch and differ in order only: in that of the fields that are taken over. -/
structure FederatedSubgraph.SameUpToOrder (e e' : FederatedSubgraph) : Prop where
  url : e.url = e'.url
  normal : e.normal = e'.normal
  configuration : e.configuration = e'.configuration
  overriddenFields : e.overriddenFields.Agree OrderedSet.SameMembers e'.overriddenFields

namespace BatchOutcome

/-- Whether a path is among those of the hosts that have too many alternatives. -/
def IsOverLimit (o : BatchOutcome) (path : String) : Prop :=
  ∃ limit paths, .tooManyScopes limit paths ∈ o.diagnostics.errors ∧ path ∈ paths

/-- Whether a path is among those of the fields that more than one subgraph takes over. -/
def IsContested (o : BatchOutcome) (path : String) : Prop :=
  ∃ fields, .contestedFields fields ∈ o.diagnostics.errors ∧ path ∈ fields.map ContestedField.path

/-- Two outcomes of a batch that differ in order only. -/
structure SameUpToOrder (o o' : BatchOutcome) : Prop where
  success : o.isSuccess = o'.isSuccess
  overLimit : ∀ path, o.IsOverLimit path ↔ o'.IsOverLimit path
  contested : ∀ path, o.IsContested path ↔ o'.IsContested path
  concreteTypes : Table.Agree OrderedSet.SameMembers o.concreteTypes o'.concreteTypes
  entities : o.entities.Agree Router.Entity.SameUpToOrder o'.entities
  subgraphs : o.subgraphs.Agree FederatedSubgraph.SameUpToOrder o'.subgraphs

end BatchOutcome

namespace Batch

variable {options : BatchOptions} {subgraphs others : List Subgraph}

/-! ## What is gathered into tables -/

theorem holds_addConcrete {P : NameSet → Prop} (union : ∀ s t : NameSet, P (s.union t) ↔ P s ∨ P t)
    (fresh : ∀ t : NameSet, P (OrderedSet.empty.union t) ↔ P t) {k : String} (t : Table String NameSet)
    (e : String × NameSet) : (Merger.addConcrete t e).Holds k P ↔ t.Holds k P ∨ (e.1 = k ∧ P e.2) := by
  refine Table.holds_upsert _ e.2 e.1 fun old => ?_
  cases old with
  | none => simpa using fresh e.2
  | some s => simpa using union s e.2

theorem holds_addEntity {P : Router.Entity → Prop} (union : ∀ a b : Router.Entity, P (a.union b) ↔ P a ∨ P b)
    {k : String} (t : Table String Router.Entity) (e : String × Router.Entity) :
    (Merger.addEntity t e).Holds k P ↔ t.Holds k P ∨ (e.1 = k ∧ P e.2) := by
  refine Table.holds_upsert _ e.2 e.1 fun old => ?_
  cases old with
  | none => simp
  | some a => simpa using union a e.2

/-- What each subgraph adds its entries to has, under a key, what some subgraph has under it. -/
theorem holds_mergeAll {β : Type} {view : Merger → Table String β} {own : NormalSubgraph → Table String β}
    {add : Table String β → String × β → Table String β} {P : β → Prop} {k : String}
    (one : ∀ t e, (add t e).Holds k P ↔ t.Holds k P ∨ (e.1 = k ∧ P e.2)) (start : view .empty = .empty)
    (beside : ∀ (m : Merger) graph warnings failures, view { m with graph, warnings, failures } = view m)
    (merged : ∀ limit names reported s n m,
      view (m.mergeResult limit names reported s n) = (own n).toList.foldl add (view m)) :
    (view (mergeAll options subgraphs)).Holds k P ↔ ∃ x ∈ members options subgraphs, (own x.2).Holds k P := by
  refine mergeAll_induction (fun past m => (view m).Holds k P ↔ ∃ x ∈ past, (own x.2).Holds k P)
    (by simp [start, Table.Holds]) (fun past m graph warnings failures h => by rw [beside, h])
    fun past s n m reported _ _ h => ?_
  rw [merged, Table.holds_foldl one, h, Table.exists_mem_toList_iff]
  simp [or_and_right, exists_or]

theorem holds_concreteTypes {P : NameSet → Prop} (union : ∀ s t : NameSet, P (s.union t) ↔ P s ∨ P t)
    (fresh : ∀ t : NameSet, P (OrderedSet.empty.union t) ↔ P t) {k : String} :
    Table.Holds (mergeAll options subgraphs).concreteTypes k P ↔
      ∃ x ∈ members options subgraphs, Table.Holds x.2.concreteTypes k P :=
  holds_mergeAll (holds_addConcrete union fresh) rfl (fun _ _ _ _ => rfl) fun limit names reported s n m =>
    (m.mergesResult_mergeResult limit names reported s n).concreteTypes

theorem holds_entities {P : Router.Entity → Prop} (union : ∀ a b : Router.Entity, P (a.union b) ↔ P a ∨ P b)
    {k : String} : (mergeAll options subgraphs).entities.Holds k P ↔
      ∃ x ∈ members options subgraphs, x.2.entities.Holds k P :=
  holds_mergeAll (holds_addEntity union) rfl (fun _ _ _ _ => rfl) fun limit names reported s n m =>
    (m.mergesResult_mergeResult limit names reported s n).entities

/-! ## Errors -/

section Errors

variable (w : WellFormed options subgraphs)

include w

theorem mem_tooManyScopes_iff {limit : Nat} {paths : List String} :
    .tooManyScopes limit paths ∈ (normalizeBatch options subgraphs).diagnostics.errors ↔
      (mergeAll options subgraphs).overLimit.toList ≠ [] ∧ limit = options.maxOrScopes ∧
        paths = (mergeAll options subgraphs).overLimit.toList := by
  have failures := failures_eq_nil_iff.mpr w.valid
  have names := nameErrors_eq_nil_iff.mpr ⟨w.named, w.distinct⟩
  have contested : ∀ m : Merger, Error.tooManyScopes limit paths ∉ contestedErrors m := by
    intro m
    unfold contestedErrors
    dsimp only
    split <;> simp
  simp only [normalizeBatch, List.mem_append, contested, names, failures, List.not_mem_nil, or_false]
  split
  · next none => simp [OrderedSet.isEmpty_iff.mp none]
  · next some =>
    have some : (mergeAll options subgraphs).overLimit.toList ≠ [] := by simpa [OrderedSet.isEmpty_iff] using some
    simp [some]

theorem isOverLimit_iff {path : String} :
    (normalizeBatch options subgraphs).IsOverLimit path ↔ path ∈ (mergeAll options subgraphs).overLimit.toList := by
  simp only [BatchOutcome.IsOverLimit, mem_tooManyScopes_iff w]
  constructor
  · rintro ⟨_, _, ⟨-, -, rfl⟩, member⟩
    exact member
  · exact fun member => ⟨_, _, ⟨List.ne_nil_of_mem member, rfl, rfl⟩, member⟩

theorem isContested_iff {path : String} :
    (normalizeBatch options subgraphs).IsContested path ↔ path ∈ (mergeAll options subgraphs).contested.toList := by
  simp only [BatchOutcome.IsContested, mem_errors_iff w]
  constructor
  · rintro ⟨_, ⟨-, rfl⟩, member⟩
    simpa using member
  · exact fun member => ⟨_, ⟨List.ne_nil_of_mem member, rfl⟩, by simpa using member⟩

end Errors

/-! ## Another order -/

theorem withoutFields_congr (configuration : Table String Router.Configuration) {types types' : Table String NameSet}
    (agree : types.Agree OrderedSet.SameMembers types') :
    withoutFields configuration types = withoutFields configuration types' := by
  refine Table.ext (List.filterMap_congr fun e _ => congrArg (Option.map (Prod.mk e.1)) ?_)
  have keys : e.1 ∈ types.keys ↔ e.1 ∈ types'.keys := agree.keys.mem_iff
  rw [← Table.get?_isSome_iff, ← Table.get?_isSome_iff] at keys
  dsimp only
  cases found : types.get? e.1 with
  | none => cases found' : types'.get? e.1 <;> simp_all
  | some s =>
    cases found' : types'.get? e.1 with
    | none => simp_all
    | some t =>
      have alike : s.contains = t.contains := funext fun name => by
        rw [Bool.eq_iff_iff, OrderedSet.contains_iff, OrderedSet.contains_iff]
        exact OrderedSet.sameMembers_iff.mp (agree.values _ s t found found') name
      simp only [alike]

section Perm

variable (perm : subgraphs.Perm others)

include perm

theorem perm_members : (members options subgraphs).Perm (members options others) := perm.filterMap _

theorem WellFormed.of_perm (w : WellFormed options subgraphs) : WellFormed options others where
  named s given := w.named s (perm.mem_iff.mpr given)
  distinct := (perm.filterMap Subgraph.name).nodup_iff.mp w.distinct
  valid s given := w.valid s (perm.mem_iff.mpr given)

theorem taken_perm {target typeName name : String} :
    Taken options subgraphs target typeName name ↔ Taken options others target typeName name :=
  exists_congr fun _ => and_congr_left' perm.mem_iff

theorem perm_requirements (host : FederatedHost) :
    (requirements options subgraphs host).Perm (requirements options others host) :=
  (perm.filterMap _).map _

theorem overLimit_perm {path : String} :
    path ∈ (mergeAll options subgraphs).overLimit.toList ↔ path ∈ (mergeAll options others).overLimit.toList := by
  rw [mem_overLimit_iff, mem_overLimit_iff]
  refine exists_congr fun host => and_congr_right fun _ => ?_
  rw [Requirement.length_choosing_perm (perm_requirements perm host),
    Requirement.combinations_perm (perm_requirements perm host)]

/-- A path is contested by the number of subgraphs that are noted for it. -/
theorem contested_perm (w : WellFormed options subgraphs) {path : String} :
    path ∈ (mergeAll options subgraphs).contested.toList ↔ path ∈ (mergeAll options others).contested.toList := by
  rw [mem_contested_iff w, mem_contested_iff (w.of_perm perm), noted_eq w, noted_eq (w.of_perm perm),
    ((perm_members perm).flatMap_right _).length_eq]

theorem agree_concreteTypes : Table.Agree OrderedSet.SameMembers (mergeAll options subgraphs).concreteTypes
    (mergeAll options others).concreteTypes := by
  have alike : ∀ {P : NameSet → Prop}, (∀ s t : NameSet, P (s.union t) ↔ P s ∨ P t) →
      (∀ t : NameSet, P (OrderedSet.empty.union t) ↔ P t) → ∀ k,
        Table.Holds (mergeAll options subgraphs).concreteTypes k P ↔
          Table.Holds (mergeAll options others).concreteTypes k P := by
    intro P union fresh k
    simp only [holds_concreteTypes union fresh, (perm_members perm).mem_iff]
  refine .of_holds (alike (by simp) (by simp)) fun k s t found found' => ?_
  exact Table.sameMembers_of_holds id (fun name => alike (fun _ _ => OrderedSet.mem_union)
    (fun _ => by simp [OrderedSet.mem_union]) k) found found'

theorem agree_entities : (mergeAll options subgraphs).entities.Agree Router.Entity.SameUpToOrder
    (mergeAll options others).entities := by
  have alike : ∀ {P : Router.Entity → Prop}, (∀ a b : Router.Entity, P (a.union b) ↔ P a ∨ P b) → ∀ k,
      (mergeAll options subgraphs).entities.Holds k P ↔ (mergeAll options others).entities.Holds k P := by
    intro P union k
    simp only [holds_entities union, (perm_members perm).mem_iff]
  refine .of_holds (alike (by simp)) fun k a b found found' => ⟨?_, ?_⟩
  · exact Table.sameMembers_of_holds Router.Entity.keyFieldSets
      (fun name => alike (fun _ _ => OrderedSet.mem_union) k) found found'
  · exact Table.sameMembers_of_holds Router.Entity.subgraphs
      (fun name => alike (fun _ _ => OrderedSet.mem_union) k) found found'

theorem agree_takenFrom {target : String} (known : target ∈ givenNames subgraphs) :
    (takenFrom (mergeAll options subgraphs).overrides target).Agree OrderedSet.SameMembers
      (takenFrom (mergeAll options others).overrides target) := by
  have known' : target ∈ givenNames others := (perm.filterMap Subgraph.name).mem_iff.mp known
  refine .of_keys (fun k => ?_) fun k s t found found' => OrderedSet.sameMembers_iff.mpr fun name => ?_
  · rw [mem_keys_takenFrom_mergeAll known, mem_keys_takenFrom_mergeAll known']
    exact exists_congr fun name => taken_perm perm
  · rw [mem_takenFrom_mergeAll known found, mem_takenFrom_mergeAll known' found', taken_perm perm]

theorem isSuccess_of_perm (success : (normalizeBatch options subgraphs).isSuccess = true) :
    (normalizeBatch options others).isSuccess = true := by
  obtain ⟨w, room, uncontested⟩ := isSuccess_iff.mp success
  rw [List.eq_nil_iff_forall_not_mem] at room uncontested
  refine isSuccess_iff.mpr ⟨w.of_perm perm, ?_, ?_⟩
  · exact List.eq_nil_iff_forall_not_mem.mpr fun path noted => room path ((overLimit_perm perm).mpr noted)
  · exact List.eq_nil_iff_forall_not_mem.mpr fun path noted => uncontested path ((contested_perm perm w).mpr noted)

theorem isSuccess_perm : (normalizeBatch options subgraphs).isSuccess = (normalizeBatch options others).isSuccess :=
  Bool.eq_iff_iff.mpr ⟨isSuccess_of_perm perm, isSuccess_of_perm perm.symm⟩

theorem agree_subgraphs (w : WellFormed options subgraphs) :
    (normalizeBatch options subgraphs).subgraphs.Agree FederatedSubgraph.SameUpToOrder
      (normalizeBatch options others).subgraphs := by
  have entries := subgraphs_mergeAll options w.distinct
  -- Before anything is taken, the same subgraphs stand there in another order.
  have same : (mergeAll options subgraphs).subgraphs.toList.Perm (mergeAll options others).subgraphs.toList := by
    rw [entries, subgraphs_mergeAll options (w.of_perm perm).distinct]
    exact (perm_members perm).filterMap _
  cases success : (normalizeBatch options subgraphs).isSuccess with
  | false =>
    rw [subgraphs_of_failure success, subgraphs_of_failure (isSuccess_perm perm ▸ success)]
    refine .of_perm (fun e => ⟨rfl, rfl, rfl, ?_⟩) same
    exact .of_perm (fun s => .refl _) (.refl _)
  | true =>
    rw [subgraphs_of_success success, subgraphs_of_success (isSuccess_perm perm ▸ success)]
    refine (Table.Agree.of_perm (fun _ => rfl) same : Table.Agree Eq _ _).map ?_
    rintro name e _ listed rfl
    rw [Table.keys, entries] at listed
    obtain ⟨⟨_, e'⟩, member, rfl⟩ := List.mem_map.mp listed
    obtain ⟨s, given, named, -⟩ := mem_entered.mp member
    -- What is taken from a subgraph may come in another order, which makes no difference to what is left.
    have agree := @agree_takenFrom options _ _ perm _ (List.mem_filterMap.mpr ⟨s, given, named⟩)
    exact ⟨rfl, rfl, withoutFields_congr _ agree, agree⟩

end Perm

end Batch

open Batch

/-- The order in which subgraphs are given makes no difference. A host is over the limit where more than one subgraph
lists scopes for it and taken together these are too many alternatives, and otherwise a client meets what the
federation requires of it where it meets what each subgraph does. -/
theorem normalizeBatch_perm {options : BatchOptions} {subgraphs others : List Subgraph}
    (w : WellFormed options subgraphs) (perm : subgraphs.Perm others) :
    (normalizeBatch options subgraphs).SameUpToOrder (normalizeBatch options others) ∧
    (∀ path, (normalizeBatch options subgraphs).IsOverLimit path ↔ ∃ host : FederatedHost, host.path = path ∧
      1 < (Requirement.choosing (requirements options subgraphs host)).length ∧
      options.maxOrScopes < Requirement.combinations (requirements options subgraphs host)) ∧
    ((∀ limit paths, .tooManyScopes limit paths ∉ (normalizeBatch options subgraphs).diagnostics.errors) →
      ∀ (who : Credential) (host : FederatedHost),
        who.Satisfies (host.requirement (normalizeBatch options subgraphs).authorization) ↔
          ∀ s ∈ subgraphs, ∀ n, (outcomeOf options s).result? = some n →
            who.Satisfies (host.requirement n.authorization)) := by
  refine ⟨⟨isSuccess_perm perm, fun path => ?_, fun path => ?_, agree_concreteTypes perm, agree_entities perm,
    agree_subgraphs perm w⟩, fun path => ?_, fun quiet who host => ?_⟩
  · rw [isOverLimit_iff w, isOverLimit_iff (w.of_perm perm), overLimit_perm perm]
  · rw [isContested_iff w, isContested_iff (w.of_perm perm), contested_perm perm w]
  · rw [isOverLimit_iff w, mem_overLimit_iff]
  · have room : (mergeAll options subgraphs).overLimit.toList = [] := by
      by_contra some
      exact quiet _ _ ((mem_tooManyScopes_iff w).mpr ⟨some, rfl, rfl⟩)
    refine (satisfies_mergeAll room who host).trans ?_
    simp only [requirements, normals, List.forall_mem_map, List.mem_filterMap]
    constructor
    · exact fun all s given n valid => all n ⟨s, given, valid⟩
    · rintro all n ⟨s, given, valid⟩
      exact all s given n valid

theorem sameUpToOrder_taking :
    WellFormed .default [givingSubgraph, takingSubgraph "B" "A" "Query"] ∧
      (normalizeBatch .default [givingSubgraph, takingSubgraph "B" "A" "Query"]).SameUpToOrder
        (normalizeBatch .default [takingSubgraph "B" "A" "Query", givingSubgraph]) := by
  have w : WellFormed .default [givingSubgraph, takingSubgraph "B" "A" "Query"] := by decide +kernel
  exact ⟨w, (normalizeBatch_perm w (.swap _ _ _)).1⟩

end Federation
