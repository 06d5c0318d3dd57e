import Federation.Proofs.Authorization.Contribution
import Federation.Proofs.FieldSet.Condition
import Federation.Proofs.Grammar.Yield
import Federation.Proofs.Permutation.Assembly

/-!
# The result of definitions in another order

A document that defines everything once says the same whatever the order of its definitions: it is valid in every order
or in none, and what is handed out differs in the order of tables and lists only.
-/

namespace Federation

open Schema
open Grammar (readStatements? Token)

/-! ## Results that differ in order -/

/-- Two configurations of a type that list its events and its concrete types in any order. -/
structure Router.Configuration.SameUpToOrder (c c' : Configuration) : Prop where
  apart : { c' with events := c.events, concreteTypes? := c.concreteTypes? } = c
  events : c.events.Perm c'.events
  concreteTypes : Option.Rel OrderedSet.SameMembers c.concreteTypes? c'.concreteTypes?

/-- Two descriptions of an entity interface that list its concrete types in any order. -/
structure Router.EntityInterface.SameUpToOrder (e e' : EntityInterface) : Prop where
  apart : { e' with concreteTypes := e.concreteTypes } = e
  concreteTypes : e.concreteTypes.SameMembers e'.concreteTypes

/-- Two lists of the same ways in which a field becomes available. -/
structure Router.ConditionalField.SameUpToOrder (f f' : ConditionalField) : Prop where
  providedBy : f.providedBy.Perm f'.providedBy
  requiredBy : f.requiredBy.Perm f'.requiredBy

/-- Two records of the same requirements, each with its alternatives in any order. -/
structure Authorization.Record.SameUpToOrder (r r' : Record) : Prop where
  coversFields : r'.coversFields = r.coversFields
  requirement : r.requirement.SameUpToOrder r'.requirement
  fields : r.fields.Agree Requirement.SameUpToOrder r'.fields

/-- Two valid subgraphs that differ in the order of tables, sets and lists only. -/
structure NormalSubgraph.SameUpToOrder (n n' : NormalSubgraph) : Prop where
  name : n'.name = n.name
  isEventDriven : n'.isEventDriven = n.isEventDriven
  isVersionTwo : n'.isVersionTwo = n.isVersionTwo
  roots : n'.roots = n.roots
  types : n.types.Agree Eq n'.types
  authorization : n.authorization.Agree Authorization.Record.SameUpToOrder n'.authorization
  concreteTypes : n.concreteTypes.Agree OrderedSet.SameMembers n'.concreteTypes
  conditionalFields : n.conditionalFields.Agree Router.ConditionalField.SameUpToOrder n'.conditionalFields
  configuration : n.configuration.Agree Router.Configuration.SameUpToOrder n'.configuration
  entities : n.entities.Agree Eq n'.entities
  entityInterfaces : n.entityInterfaces.Agree Router.EntityInterface.SameUpToOrder n'.entityInterfaces
  keyFieldNames : n.keyFieldNames.Agree Eq n'.keyFieldNames
  overrides : n.overrides.Agree (Table.Agree OrderedSet.SameMembers) n'.overrides
  clientDirectives : n.clientDirectives.Agree Eq n'.clientDirectives

/-- Tables that show the same under every key agree where what is shown tells enough. -/
theorem Table.Agree.of_view {κ β γ : Type} [DecidableEq κ] {R : β → β → Prop} {t u : Table κ β} (view : β → γ)
    (same : ∀ k, (u.get? k).map view = (t.get? k).map view) (related : ∀ v w, view w = view v → R v w) :
    t.Agree R u := by
  refine .of_keys (fun k => ?_) fun k v w found found' => related v w ?_
  · have both := congrArg Option.isSome (same k)
    rw [Option.isSome_map, Option.isSome_map] at both
    rw [← get?_isSome_iff, ← get?_isSome_iff, both]
  · have both := same k
    rw [found, found'] at both
    exact Option.some.inj both

namespace Authorization

theorem Record.sameUpToOrder_of_account {r r' : Record} (same : r'.account = r.account) : r.SameUpToOrder r' where
  coversFields := congrArg Account.coversFields same
  requirement := (congrArg Account.requirement same).symm
  fields := .of_view Requirement.demand (congrFun (congrArg Account.fields same)) fun _ _ => Eq.symm

theorem Records.agree_of_accounts {records records' : Records} (same : records'.accounts = records.accounts) :
    Table.Agree Record.SameUpToOrder records records' :=
  .of_view Record.account (congrFun same) fun _ _ => Record.sameUpToOrder_of_account

end Authorization

namespace Assembly

/-! ## What is assembled -/

/-- What the router knows of an entity interface. -/
def entityInterfaceOf (a : Assembly) (name : String) (entry : TypeEntry) (c : Composite) : Router.EntityInterface where
  concreteTypes := a.survey.concrete.of name
  fields := c.fields.toList.map fun (field, f) => (field, f.type.namedType)
  isInterfaceObject := entry.kind = .object
  isResolvable := match a.survey.keySets.get? name with
    | none => true
    | some sets => sets.values.any id

theorem entityInterfaces_eq (a : Assembly) :
    a.entityInterfaces = .ofList ((a.ownComposites.filter fun e => isEntityInterface e.2.1).map fun e =>
      (e.1, a.entityInterfaceOf e.1 e.2.1 e.2.2)) := by
  have kept {α β : Type} (p : α → Bool) (f : α → β) (l : List α) :
      l.filterMap (fun x => if p x then some (f x) else none) = (l.filter p).map f := by
    induction l with
    | nil => rfl
    | cons x l ih => by_cases h : p x <;> simp [h, ih]
  exact congrArg Table.ofList (kept (fun e => isEntityInterface e.2.1) _ a.ownComposites)

namespace SameUpToOrder

variable {a b : Assembly} (same : a.SameUpToOrder b)

include same

theorem foundConditions : b.foundConditions.Perm a.foundConditions := by
  have conditions : (fun d : FieldSet.DeclaredSelection => d.conditions b.types) = fun d => d.conditions a.types :=
    funext (FieldSet.DeclaredSelection.conditions_congr same.types)
  unfold Assembly.foundConditions
  simp only [congrFun conditions]
  exact same.declaredSelections.flatMap_right _

theorem conditionalFields :
    a.conditionalFields.Agree Router.ConditionalField.SameUpToOrder b.conditionalFields := by
  refine .of_keys (fun path => ?_) fun path f f' found found' => ?_
  · simp only [mem_keys_conditionalFields, same.foundConditions.mem_iff]
  · have here := a.getD_conditionalFields path
    have here' := b.getD_conditionalFields path
    rw [Table.getD, found, Option.getD_some] at here
    rw [Table.getD, found', Option.getD_some] at here'
    rw [here, here']
    exact ⟨(same.foundConditions.symm.filter _).map _, (same.foundConditions.symm.filter _).map _⟩

theorem configurationOf (name : String) (entry : TypeEntry) (c : Composite) :
    (a.configurationOf name entry c).SameUpToOrder (b.configurationOf name entry c) where
  apart := by
    simp only [Assembly.configurationOf, same.setting.roots, same.definedRoots, FieldSet.keysOf_congr same.types,
      FieldSet.providedOn_congr same.types, FieldSet.requiredOn_congr same.types,
      Table.getD_congr same.survey.keySets, Table.getD_congr same.survey.fieldSets]
  events := by
    simp only [Assembly.configurationOf, same.setting.roots]
    exact same.survey.bindings _
  concreteTypes := by
    simp only [Assembly.configurationOf]
    split
    · exact .some (same.of_concrete name).symm
    · exact .none

theorem configuration (nodup : (a.ownComposites.map fun e => a.setting.roots.canonicalName e.1).Nodup) :
    a.configuration.Agree Router.Configuration.SameUpToOrder b.configuration := by
  unfold Assembly.configuration
  rw [same.setting.roots]
  exact Table.agree_ofList same.ownComposites.symm nodup fun e _ => same.configurationOf e.1 e.2.1 e.2.2

theorem entities : b.entities.get? = a.entities.get? := by
  funext name
  simp only [Assembly.entities, Table.get?_filterMap, same.types, Table.getD_congr same.survey.keySets,
    same.setting.subgraph]

theorem entityInterfaces :
    a.entityInterfaces.Agree Router.EntityInterface.SameUpToOrder b.entityInterfaces := by
  rw [entityInterfaces_eq, entityInterfaces_eq]
  refine Table.agree_ofList (same.ownComposites.symm.filter _) ((List.filter_sublist.map Prod.fst).nodup
    a.nodup_ownComposites) fun e _ => ⟨?_, (same.of_concrete e.1).symm⟩
  simp only [entityInterfaceOf, same.survey.keySets]

theorem clientDirectives : b.clientDirectives.get? = a.clientDirectives.get? := by
  funext name
  simp only [Assembly.clientDirectives, Table.get?_filterMap, same.setting.customDirectives]

theorem accounts (within : a.ledger.overLimit.toList = []) :
    b.ledger.records.accounts = a.ledger.records.accounts := by
  have ledger := same.ledger
  have none : a.ledger.overLimit.isEmpty = true := OrderedSet.isEmpty_iff.mpr within
  unfold Authorization.Ledger.accounts? at ledger
  rw [if_pos none] at ledger
  split at ledger
  · exact Option.some.inj ledger
  · exact absurd ledger nofun

/-- What is handed out differs in order only. -/
theorem result (within : a.ledger.overLimit.toList = [])
    (nodup : (a.ownComposites.map fun e => a.setting.roots.canonicalName e.1).Nodup) :
    a.result.SameUpToOrder b.result where
  name := same.setting.subgraph
  isEventDriven := same.setting.isEventDriven
  isVersionTwo := same.setting.isVersionTwo
  roots := same.setting.roots
  types := Table.agree_of_get? same.types
  authorization := Authorization.Records.agree_of_accounts (same.accounts within)
  concreteTypes := same.survey.concrete
  conditionalFields := same.conditionalFields
  configuration := same.configuration nodup
  entities := Table.agree_of_get? same.entities
  entityInterfaces := same.entityInterfaces
  keyFieldNames := Table.agree_of_get? same.keyFieldNames
  overrides := same.survey.overrides
  clientDirectives := Table.agree_of_get? same.clientDirectives

end SameUpToOrder

/-! ## Assemblies of one document -/

variable {document others : Document} {subgraph : String} {maxOrScopes : Nat}

/-- A document without errors is assembled to the same in every order. -/
theorem sameUpToOrder_of (once : document.DefinesOnce) (plain : ∀ t ∈ document.types, '.' ∉ t.name.toList)
    (perm : document.Perm others) (clean : (Assembly.of subgraph maxOrScopes (document.map .define)).errors = []) :
    (Assembly.of subgraph maxOrScopes (document.map .define)).SameUpToOrder
        (Assembly.of subgraph maxOrScopes (others.map .define)) ∧
      (Assembly.of subgraph maxOrScopes (others.map .define)).errors = [] := by
  have v := valid_of subgraph maxOrScopes _ clean
  obtain ⟨setting, errors⟩ := Setting.sameUpToOrder_of subgraph maxOrScopes once perm
  have roots := setting.roots
  -- Settings that are alike make the same walk, so that both walks can be compared under the first one.
  have walk : (Assembly.of subgraph maxOrScopes (others.map .define)).survey =
      Survey.walk (Setting.of subgraph maxOrScopes (document.map .define)).1
        (Setting.of subgraph maxOrScopes (document.map .define)).2 (others.map .define) := by
    rw [← Survey.walk_congr setting, ← errors]
    rfl
  have quiet : (Survey.walk (Setting.of subgraph maxOrScopes (document.map .define)).1
      (Setting.of subgraph maxOrScopes (document.map .define)).2 (document.map .define)).errors = [] := by
    simp only [Assembly.errors, List.append_eq_nil_iff] at clean
    exact clean.1.1.1.1.1.1.1.1.1
  obtain ⟨quiet', survey⟩ := Survey.sameUpToOrder_walk once plain perm quiet
  rw [← walk] at quiet' survey
  have injective : ∀ typeName ∈ (Assembly.of subgraph maxOrScopes (document.map .define)).types.keys,
      ∀ other ∈ (Assembly.of subgraph maxOrScopes (document.map .define)).types.keys,
      (Assembly.of subgraph maxOrScopes (document.map .define)).setting.roots.canonicalName typeName =
        (Assembly.of subgraph maxOrScopes (document.map .define)).setting.roots.canonicalName other →
      typeName = other := fun _ first _ second same => v.canonicalName_injective first second same
  have ledger := survey.ledger.consolidate (Table.perm_of_get? survey.types) survey.of_concrete injective
    v.abstract_covering
  have same : (Assembly.of subgraph maxOrScopes (document.map .define)).SameUpToOrder
      (Assembly.of subgraph maxOrScopes (others.map .define)) := by
    refine ⟨setting, survey, ?_⟩
    rw [maxOrScopes_of] at ledger
    change _ = (Assembly.of subgraph maxOrScopes (document.map .define)).ledger.accounts? at ledger
    rw [← ledger]
    unfold Assembly.of
    dsimp only
    rw [roots]
  exact ⟨same, (same.errors quiet quiet').mpr clean⟩

end Assembly

/-! ## Normalization -/

section Normal

variable {options : NormalizationOptions} {text : String} {document others : Document}

/-- A subgraph is handed out just where there are no errors, nor warnings that count as such. -/
theorem isSome_normalize_iff (options : NormalizationOptions) (statements : List Statement) :
    (normalize options statements).result?.isSome = true ↔
      (Assembly.of options.subgraph options.maxOrScopes statements).errors = [] ∧
        (options.warningsAreFatal = true →
          (Assembly.of options.subgraph options.maxOrScopes statements).warnings = []) := by
  unfold normalize
  cases options.warningsAreFatal <;> simp [Diagnostics.anyFatal, Diagnostics.promoteWarnings]

theorem isSome_normalize_perm (once : document.DefinesOnce) (plain : ∀ t ∈ document.types, '.' ∉ t.name.toList)
    (perm : document.Perm others) (valid : (normalize options (document.map .define)).result?.isSome = true) :
    (normalize options (others.map .define)).result?.isSome = true := by
  rw [isSome_normalize_iff] at valid ⊢
  obtain ⟨same, clean⟩ := Assembly.sameUpToOrder_of once plain perm valid.1
  exact ⟨clean, fun fatal => (eq_nil_iff_of_perm same.warnings).mpr (valid.2 fatal)⟩

/-- The name of a type that was read has no dot. -/
theorem plain_of_readStatements? (read : readStatements? text = some (document.map .define)) :
    ∀ t ∈ document.types, '.' ∉ t.name.toList := by
  intro t member dot
  obtain ⟨x, defined, same⟩ := List.mem_filterMap.mp member
  have legible := Grammar.isLegible_of_readStatements? read (.define x) (List.mem_map_of_mem defined)
  cases x with
  | type t' =>
    obtain rfl : t' = t := Option.some.inj same
    have named : Token.isName t'.name = true := by
      simp only [Statement.isLegible, Definition.isLegible, TypeDefinition.isLegible, Bool.and_eq_true] at legible
      exact legible.1.1
    exact Token.dot_notMem_of_isName named dot
  | schema | directive => exact absurd same (Option.some_ne_none t).symm

/-- Whether a document is valid does not depend on the order of its definitions, and what is handed out for it differs
in the order of tables, sets and lists only. -/
theorem normalize_perm (read : readStatements? text = some (document.map .define)) (once : document.DefinesOnce)
    (perm : document.Perm others) :
    (normalize options (others.map .define)).result?.isSome =
        (normalize options (document.map .define)).result?.isSome ∧
      ∀ n n', (normalize options (document.map .define)).result? = some n →
        (normalize options (others.map .define)).result? = some n' → n.SameUpToOrder n' := by
  have plain := plain_of_readStatements? read
  have plain' : ∀ t ∈ others.types, '.' ∉ t.name.toList := fun t member =>
    plain t ((perm.filterMap _).mem_iff.mpr member)
  refine ⟨Bool.eq_iff_iff.mpr ⟨isSome_normalize_perm (once.of_perm perm) plain' perm.symm,
    isSome_normalize_perm once plain perm⟩, fun n n' valid valid' => ?_⟩
  obtain ⟨clean, rfl⟩ := result_of_normalize valid
  obtain ⟨-, rfl⟩ := result_of_normalize valid'
  have v := Assembly.valid_of options.subgraph options.maxOrScopes _ clean
  exact (Assembly.sameUpToOrder_of once plain perm clean).1.result v.within v.nodup_canonicalNames

end Normal

/-- What a statement defines, if it extends nothing. -/
def Schema.Statement.definition? : Statement → Option Definition
  | define d => some d
  | extendSchema _ | extendType _ => none

theorem Schema.Statement.eq_map_define {statements : List Statement}
    (all : statements.all (fun x => x.definition?.isSome) = true) :
    statements = (statements.filterMap definition?).map .define := by
  induction statements with
  | nil => rfl
  | cons x statements ih =>
    rw [List.all_cons, Bool.and_eq_true] at all
    cases x with
    | define d => exact congrArg (Statement.define d :: ·) (ih all.2)
    | extendSchema | extendType => exact absurd all.1 nofun

/-- A library where fields come before the enum they return and the interface they implement, and everything comes
before the schema. -/
def forwardText : String :=
  "type L\x7bbooks:[Book]\x7d type Book implements N@key(fields:\"id\")\x7bid:ID! on:Shelf\x7d
  enum Shelf@requiresScopes(scopes:[\"r\"])\x7bA\x7d interface N@authenticated\x7bid:ID!\x7d schema\x7bquery:L\x7d"

theorem normalize_perm_forward : ∃ document : Document, ∃ n n',
    readStatements? forwardText = some (document.map .define) ∧ document.DefinesOnce ∧
    document.Perm document.reverse ∧ (normalize .default (document.map .define)).result? = some n ∧
    (normalize .default (document.reverse.map .define)).result? = some n' ∧
    n.configuration.keys = ["Query", "Book", "N"] ∧ n'.configuration.keys = ["N", "Book", "Query"] ∧
    n.SameUpToOrder n' := by
  have checked : (readStatements? forwardText).any (fun statements =>
      (statements.all fun x => x.definition?.isSome) &&
      decide (Document.DefinesOnce (statements.filterMap Statement.definition?)) &&
      (normalize .default statements).result?.any (fun n => decide (n.configuration.keys = ["Query", "Book", "N"])) &&
      (normalize .default ((statements.filterMap Statement.definition?).reverse.map .define)).result?.any fun n' =>
        decide (n'.configuration.keys = ["N", "Book", "Query"])) = true := by
    decide +kernel
  simp only [Option.any_eq_true, Bool.and_eq_true, decide_eq_true_eq] at checked
  obtain ⟨statements, read, ⟨⟨all, once⟩, n, valid, keys⟩, n', valid', keys'⟩ := checked
  have same := Statement.eq_map_define all
  rw [same] at read valid
  have perm := (List.reverse_perm (statements.filterMap Statement.definition?)).symm
  exact ⟨_, n, n', read, once, perm, valid, valid', keys, keys', (normalize_perm read once perm).2 n n' valid valid'⟩

end Federation
