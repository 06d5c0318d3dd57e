import Federation.Grammar.Statement
import Federation.Membership.Graph
import Federation.Normalization.Assembly
import Federation.Normalization.Walk

/-!
Normalization of one subgraph. Its statements are surveyed, requirements are passed on, and the document
and the router's data are assembled; they are handed out only where there is no error.
-/

namespace Federation

open Schema

structure NormalizationOptions where
  subgraphName : Option String
  maxOrScopes : Nat
  warningsAreFatal : Bool
  deriving DecidableEq

/-- How many alternatives a requirement may have where nothing else is set. -/
def defaultMaxOrScopes : Nat := 16

def NormalizationOptions.default : NormalizationOptions := ⟨none, defaultMaxOrScopes, false⟩

/-- The name that a subgraph is normalized under. -/
def NormalizationOptions.subgraph (o : NormalizationOptions) : String :=
  o.subgraphName.getD Vocabulary.unnamedSubgraph

/-- A valid subgraph with all that a composer and a router have to know of it. -/
structure NormalSubgraph where
  name : String
  document : Document
  isEventDriven : Bool
  isVersionTwo : Bool
  roots : RootTypes
  types : Registry
  authorization : Authorization.Records
  concreteTypes : ConcreteTypes
  conditionalFields : Table String Router.ConditionalField
  configuration : Table String Router.Configuration
  entities : Table String Router.Entity
  entityInterfaces : Table String Router.EntityInterface
  keyFieldNames : Table String NameSet
  overrides : Overrides
  clientDirectives : Table String Router.ClientDirective

structure Outcome where
  /-- The subgraph, if there are no errors. -/
  result? : Option NormalSubgraph
  diagnostics : Diagnostics
  /-- What the subgraph says about membership, whether it is valid or not. -/
  facts : List Membership.Fact

def Assembly.result (a : Assembly) : NormalSubgraph where
  name := a.setting.subgraph
  document := a.document
  isEventDriven := a.setting.isEventDriven
  isVersionTwo := a.setting.isVersionTwo
  roots := a.setting.roots
  types := a.types
  authorization := a.ledger.records
  concreteTypes := a.survey.concrete
  conditionalFields := a.conditionalFields
  configuration := a.configuration
  entities := a.entities
  entityInterfaces := a.entityInterfaces
  keyFieldNames := a.keyFieldNames
  overrides := a.survey.overrides
  clientDirectives := a.clientDirectives

def Assembly.of (subgraph : String) (maxOrScopes : Nat) (statements : List Statement) : Assembly :=
  let (setting, errors) := Setting.of subgraph maxOrScopes statements
  let survey := Survey.walk setting errors statements
  let ledger := survey.ledger.consolidate maxOrScopes setting.roots survey.types survey.concrete
  ⟨setting, survey, ledger⟩

def normalize (options : NormalizationOptions) (statements : List Statement) : Outcome :=
  let a := Assembly.of options.subgraph options.maxOrScopes statements
  let found : Diagnostics := ⟨a.errors, a.warnings⟩
  let diagnostics := if options.warningsAreFatal then found.promoteWarnings else found
  { result? := if diagnostics.anyFatal then none else some a.result
    diagnostics
    facts := a.survey.facts }

/-- Normalizes the statements of a subgraph and writes what they say about membership to a store. -/
def normalizeInto {σ : Type} [Membership.Store σ] (options : NormalizationOptions)
    (statements : List Statement) (store : σ) : Outcome × σ :=
  let outcome := normalize options statements
  (outcome, Membership.Store.writeAll options.subgraph outcome.facts store)

/-- Reads and normalizes a subgraph without name. A text that cannot be read makes one error. -/
def normalizeText (text : String) : Outcome :=
  match Grammar.readStatements? text with
  | none => ⟨none, ⟨[.unreadable], []⟩, []⟩
  | some statements => normalize .default statements

end Federation
