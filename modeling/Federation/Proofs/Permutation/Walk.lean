import Federation.Proofs.Membership.Agreement
import Federation.Proofs.Permutation.Inheritance
import Federation.Proofs.Permutation.Survey
import Federation.Proofs.Survey.Key
import Federation.Proofs.Survey.Override

/-!
# The walk over definitions in another order

A walk without errors ends in a survey that is the same but for the order in which it has things, whatever the order of
the definitions.
-/

namespace Federation

open Schema
open Authorization

/-- Where elements of each key stand in the same order, all stand in some order. -/
theorem perm_of_filter {α κ : Type} [DecidableEq κ] (key : α → κ) {xs ys : List α}
    (same : ∀ k, xs.filter (key · = k) = ys.filter (key · = k)) : xs.Perm ys := by
  classical
  refine List.perm_iff_count.mpr fun a => ?_
  have counted (zs : List α) : List.count a (zs.filter (key · = key a)) = List.count a zs :=
    List.count_filter (decide_eq_true (rfl : key a = key a))
  rw [← counted xs, same, counted]

namespace Overrides

/-- No subgraph is listed without a type. -/
def Occupied (overrides : Overrides) : Prop :=
  ∀ target types, Table.get? overrides target = some types → ∃ typeName, typeName ∈ types.keys

theorem occupied_add {overrides : Overrides} (before : overrides.Occupied) (target typeName : String)
    (names : List String) : (overrides.add target typeName names).Occupied := by
  intro other types found
  unfold add at found
  rw [Table.get?_upsert] at found
  split at found
  · obtain rfl := Option.some.inj found
    exact ⟨typeName, Table.mem_keys_upsert.mpr (Or.inr rfl)⟩
  · exact before other types found

theorem mem_keys_iff {overrides : Overrides} (proper : overrides.Proper) {target : String}
    {types : Table String NameSet} (found : Table.get? overrides target = some types) {typeName : String} :
    typeName ∈ types.keys ↔ ∃ name, name ∈ (overrides.fields target typeName).toList := by
  have listed : overrides.fields target typeName = (types.get? typeName).getD .empty := by
    simp [fields, Table.getD, found]
  rw [listed, ← Table.get?_isSome_iff]
  cases known : types.get? typeName with
  | none => simp
  | some names => exact iff_of_true rfl (List.exists_mem_of_ne_nil _ (proper target types found typeName names known))

/-- A subgraph is listed just where some field is taken over from it. -/
theorem mem_targets_iff {overrides : Overrides} (proper : overrides.Proper) (occupied : overrides.Occupied)
    {target : String} :
    target ∈ Table.keys overrides ↔ ∃ typeName name, name ∈ (overrides.fields target typeName).toList := by
  rw [← Table.get?_isSome_iff]
  cases found : Table.get? overrides target with
  | none => simp [fields, Table.getD, found]
  | some types =>
    obtain ⟨typeName, listed⟩ := occupied target types found
    exact iff_of_true rfl ⟨typeName, (mem_keys_iff proper found).mp listed⟩

theorem agree_of_fields {overrides overrides' : Overrides} (proper : overrides.Proper) (occupied : overrides.Occupied)
    (proper' : overrides'.Proper) (occupied' : overrides'.Occupied)
    (same : ∀ target typeName name, name ∈ (overrides.fields target typeName).toList ↔
      name ∈ (overrides'.fields target typeName).toList) :
    Table.Agree (Table.Agree OrderedSet.SameMembers) overrides overrides' := by
  refine .of_keys (fun target => ?_) fun target types types' found found' => .of_keys (fun typeName => ?_) ?_
  · simp only [mem_targets_iff proper occupied, mem_targets_iff proper' occupied', same]
  · simp only [mem_keys_iff proper found, mem_keys_iff proper' found', same]
  · intro typeName names names' listed listed'
    refine OrderedSet.sameMembers_iff.mpr fun name => ?_
    have members := same target typeName name
    simpa [fields, Table.getD, found, found', listed, listed'] using members

end Overrides

/-- Two surveys that know the same. -/
structure Survey.SameUpToOrder (s s' : Survey) : Prop where
  types : s'.types.get? = s.types.get?
  ledger : s.ledger.SameUpToOrder s'.ledger
  concrete : Table.Agree OrderedSet.SameMembers s.concrete s'.concrete
  keySets : s'.keySets.get? = s.keySets.get?
  fieldSets : s'.fieldSets.get? = s.fieldSets.get?
  overrides : Table.Agree (Table.Agree OrderedSet.SameMembers) s.overrides s'.overrides
  referenced : s.referenced.SameMembers s'.referenced
  externals : s.externals.SameMembers s'.externals
  filters : s'.filters.get? = s.filters.get?
  bindings : ∀ name, (s.bindings.getD name []).Perm (s'.bindings.getD name [])

/-- A type that is defined once is sighted once, wherever that is. -/
theorem Sighting.all_perm {document others : Document} (once : document.DefinesOnce) (perm : document.Perm others)
    (typeName : String) : all (others.map .define) typeName = all (document.map .define) typeName := by
  -- A type that is defined once is sighted once at most, and one sighting has no order.
  have bound : (all (document.map .define) typeName).length ≤
      (document.types.map TypeDefinition.name).count typeName := by
    clear once perm
    induction document with
    | nil => exact Nat.le_refl _
    | cons x rest ih =>
      cases x with
      | schema | directive => exact ih
      | type t =>
        have later : all ((Definition.type t :: rest).map .define) typeName =
            (if t.name = typeName && !Survey.isReservedType t then [⟨false, t⟩] else []) ++
              all (rest.map .define) typeName := by
          simp only [all, List.map_cons, List.filterMap_cons, Statement.sighting?]
          cases t.name = typeName && !Survey.isReservedType t <;> rfl
        have named : Document.types (.type t :: rest) = t :: Document.types rest := rfl
        rw [later, named, List.map_cons, List.count_cons, List.length_append, Nat.add_comm]
        refine Nat.add_le_add ih ?_
        by_cases here : t.name = typeName
        · simp only [here, beq_self_eq_true, if_true]
          split <;> simp
        · simp [here]
  exact eq_of_perm_of_length_le_one ((perm.map _).filterMap _)
    (bound.trans (List.nodup_iff_count_le_one.mp once.types typeName))

namespace Survey

variable {setting : Setting} {errors : List Error}

theorem occupied_walk (setting : Setting) (errors : List Error) (statements : List Statement) :
    (walk setting errors statements).overrides.Occupied := by
  refine walk_recOn (motive := fun s => s.overrides.Occupied) nofun fun s _ _ l _ before => ?_
  have looked := looked_look setting s l
  generalize s.look setting l = s' at looked ⊢
  cases looked with
  | retained _ _ _ written => exact (written.same .overrides (by decide)) ▸ before
  | @type isExtension t => exact ((writes_merge setting s isExtension t).same .overrides (by decide)) ▸ before
  | conflict | duplicate | passed => exact before
  | field =>
    rw [overrides_mergeField]
    exact List.foldlRecOn _ _ before fun _ before target _ => Overrides.occupied_add before target _ _

/-- A type is listed as abstract just where some type is concrete for it. -/
theorem mem_keys_concrete {s : Survey} (speaks : s.SpeaksFor) (abstractName : String) :
    abstractName ∈ Table.keys s.concrete ↔ ∃ name, name ∈ (s.concrete.of abstractName).toList := by
  simp only [speaks.concrete, ConcreteTypes.mem_keys_ofFacts, ConcreteTypes.mem_of_ofFacts]

section Looks

variable {past past' : List Look} {s s' : Survey} (coherent : Coherent setting past s)
  (coherent' : Coherent setting past' s') (types : s'.types.get? = s.types.get?)

include coherent coherent' types

theorem agree_concrete (speaks : s.SpeaksFor) (speaks' : s'.SpeaksFor) :
    Table.Agree OrderedSet.SameMembers s.concrete s'.concrete := by
  -- In both surveys the concrete types are those that the registry tells, and both registries list the same.
  have members : ∀ abstractName name, name ∈ (s.concrete.of abstractName).toList ↔
      name ∈ (s'.concrete.of abstractName).toList := by
    intro abstractName name
    have listed : s'.types.listedNames = s.types.listedNames := by
      funext typeName
      rw [Registry.listedNames, types, Registry.listedNames]
    have kind? := Registry.kind?_congr types
    rw [coherent.concrete, coherent'.concrete, kind?, listed,
      implemented_congr (congrFun kind?) (congrFun listed)]
  refine .of_keys (fun abstractName => ?_) fun abstractName names names' found found' => ?_
  · simp only [mem_keys_concrete speaks, mem_keys_concrete speaks', members]
  · refine OrderedSet.sameMembers_iff.mpr fun name => ?_
    have alike := members abstractName name
    simpa [ConcreteTypes.of, Table.getD, found, found'] using alike

theorem heirs_perm : s'.ledger.heirs.Perm s.ledger.heirs := by
  refine perm_of_filter (fun heir => (heir.parent, heir.field)) fun (typeName, name) => ?_
  have fields : s'.types.field? = s.types.field? := Registry.field?_congr types
  have same := (coherent'.heirs typeName name).trans ((fields ▸ coherent.heirs typeName name).symm)
  simpa only [Prod.mk.injEq] using same

/-- The order of looks does not matter for the requirements that they declare. -/
theorem ledger_sameUpToOrder (looks : past.Perm past') : s.ledger.SameUpToOrder s'.ledger := by
  have declared := coherent.declared
  have declared' := coherent'.declared
  have hosts : (past.flatMap (Look.declarations setting)).Perm (past'.flatMap (Look.declarations setting)) :=
    looks.flatMap_right _
  have accounts := Ledger.accounts?_declareAll_perm setting.maxOrScopes hosts.symm .empty
  have tracks (ds : List (Host × List Directive)) (heirs : List Heir) :
      Ledger.Tracks { Ledger.empty.declareAll setting.maxOrScopes ds with heirs } :=
    Ledger.tracks_declareAll setting.maxOrScopes ds Ledger.tracks_empty
  constructor
  case accounts =>
    rw [declared, declared']
    exact accounts
  case leafTypes =>
    rw [declared, declared']
    refine OrderedSet.sameMembers_iff.mpr fun typeName => ?_
    refine (Ledger.mem_leafTypes_declareAll_iff _ _ _ _).trans (Iff.trans ?_
      (Ledger.mem_leafTypes_declareAll_iff _ _ _ _).symm)
    simp only [(hosts.flatMap_right _).mem_iff]
  case heirs => exact heirs_perm coherent coherent' types
  case tracks =>
    rw [declared]
    exact tracks _ _
  case tracks' =>
    rw [declared']
    exact tracks _ _

end Looks

/-- A walk without errors ends in the same survey, up to order, whatever the order of the definitions. -/
theorem sameUpToOrder_walk {document others : Document} (once : document.DefinesOnce)
    (plain : ∀ t ∈ document.types, '.' ∉ t.name.toList) (perm : document.Perm others)
    (clean : (walk setting errors (document.map .define)).errors = []) :
    (walk setting errors (others.map .define)).errors = [] ∧
      (walk setting errors (document.map .define)).SameUpToOrder (walk setting errors (others.map .define)) := by
  have once' := once.of_perm perm
  have plain' : ∀ t ∈ others.types, '.' ∉ t.name.toList := fun t member =>
    plain t ((perm.filterMap _).mem_iff.mpr member)
  -- Fault is found with each definition by itself.
  have clean' : (walk setting errors (others.map .define)).errors = [] := by
    rw [errors_walk_iff once plain] at clean
    rw [errors_walk_iff once' plain']
    exact ⟨clean.1, fun x member => clean.2 x (perm.mem_iff.mpr member)⟩
  have looks : (Look.all (document.map .define)).Perm (Look.all (others.map .define)) :=
    (perm.map _).flatMap_right _
  have coherent := coherent_walk clean
  have coherent' := coherent_walk clean'
  have gathers := gathers_walk once plain clean
  have gathers' := gathers_walk once' plain' clean'
  have types : (walk setting errors (others.map .define)).types.get? =
      (walk setting errors (document.map .define)).types.get? := by
    funext typeName
    rw [get?_walk, get?_walk, Sighting.all_perm once perm]
  have keys := recordsKeys_walk setting errors (document.map .define)
  have keys' := recordsKeys_walk setting errors (others.map .define)
  have overrides := recordsOverrides_walk clean
  have overrides' := recordsOverrides_walk clean'
  -- What several looks add to agrees by the looks, and what is gathered from definitions by these.
  refine ⟨clean', ?_⟩
  constructor
  case types => exact types
  case ledger => exact ledger_sameUpToOrder coherent coherent' types looks
  case concrete => exact agree_concrete coherent coherent' types (speaksFor_walk ..) (speaksFor_walk ..)
  case keySets =>
    funext typeName
    rw [keys'.keySets, keys.keySets, Registry.declaredKeys, Registry.kind?_congr types, Registry.applied, types]
    rfl
  case fieldSets =>
    funext typeName
    exact Option.ext fun sets => by simp only [gathers.fieldSets, gathers'.fieldSets, perm.mem_iff]
  case overrides =>
    refine Overrides.agree_of_fields overrides.proper (occupied_walk _ _ _) overrides'.proper (occupied_walk _ _ _)
      fun target typeName name => ?_
    simp only [overrides.fields, overrides'.fields, looks.mem_iff]
  case referenced =>
    exact OrderedSet.sameMembers_iff.mpr fun name => by
      simp only [gathers.referenced, gathers'.referenced, perm.mem_iff]
  case externals =>
    exact OrderedSet.sameMembers_iff.mpr fun path => by
      simp only [gathers.externals, gathers'.externals, perm.mem_iff]
  case filters =>
    funext path
    exact Option.ext fun isSubscription => by simp only [gathers.filters, gathers'.filters, perm.mem_iff]
  case bindings =>
    intro name
    rw [gathers.bindings, gathers'.bindings]
    exact perm.flatMap_right _

end Survey

end Federation
