import Federation.Schema.Definition
import Federation.Vocabulary

/-!
The directives that every subgraph may apply, and the types that come with them. A subgraph may define
directives of its own beside them but not in their stead.
-/

namespace Federation.Catalogue

open Schema

private def required (name : String) : TypeRef := .named name true

private def nullable (name : String) : TypeRef := .named name false

private def define (name : String) (arguments : List ArgumentDefinition) (locations : List Location) :
    DirectiveDefinition :=
  { name, description := none, arguments, isRepeatable := false
    locations := Location.ordered locations }

private def repeatable (d : DirectiveDefinition) : DirectiveDefinition := { d with isRepeatable := true }

/-- Directives of every subgraph. -/
def base : List DirectiveDefinition := [
  define Vocabulary.deprecated
    [⟨"reason", nullable "String", some (.string "No longer supported")⟩]
    [.argumentDefinition, .enumValue, .fieldDefinition, .inputFieldDefinition],
  define Vocabulary.extendsDirective [] [.interface, .object],
  define Vocabulary.external [] [.fieldDefinition, .object],
  repeatable <| define Vocabulary.key
    [⟨Vocabulary.fields, required Vocabulary.fieldSetScalar, none⟩,
      ⟨Vocabulary.resolvable, nullable "Boolean", some (.boolean true)⟩]
    [.interface, .object],
  define Vocabulary.provides
    [⟨Vocabulary.fields, required Vocabulary.fieldSetScalar, none⟩] [.fieldDefinition],
  define Vocabulary.requires
    [⟨Vocabulary.fields, required Vocabulary.fieldSetScalar, none⟩] [.fieldDefinition],
  define Vocabulary.specifiedBy [⟨"url", required "String", none⟩] [.scalar],
  repeatable <| define Vocabulary.tag [⟨"name", required "String", none⟩]
    [.argumentDefinition, .enum, .enumValue, .fieldDefinition, .inputFieldDefinition, .inputObject,
      .interface, .object, .scalar, .union]]

/-- Directives whose application marks the second version of the rules. -/
def versionTwo : List DirectiveDefinition := [
  define Vocabulary.authenticated [] [.enum, .fieldDefinition, .interface, .object, .scalar],
  repeatable <| define Vocabulary.composeDirective [⟨"name", required "String", none⟩] [.schema],
  define Vocabulary.inaccessible []
    [.argumentDefinition, .enum, .enumValue, .fieldDefinition, .inputFieldDefinition, .inputObject,
      .interface, .object, .scalar, .union],
  define Vocabulary.interfaceObject [] [.object],
  repeatable <| define Vocabulary.link
    [⟨"url", required "String", none⟩, ⟨"as", nullable "String", none⟩,
      ⟨"for", nullable "String", none⟩, ⟨"import", .list (nullable "link__Import") false, none⟩]
    [.schema],
  define Vocabulary.override [⟨Vocabulary.fromArgument, required "String", none⟩] [.fieldDefinition],
  define Vocabulary.requiresScopes
    [⟨Vocabulary.scopes, .list (.list (required Vocabulary.scopeScalar) true) true, none⟩]
    [.enum, .fieldDefinition, .interface, .object, .scalar],
  repeatable <| define Vocabulary.shareable [] [.fieldDefinition, .object]]

private def provider : ArgumentDefinition :=
  ⟨Vocabulary.providerId, required "String", some (.string Vocabulary.defaultProvider)⟩

private def texts : TypeRef := .list (required "String") true

/-- Directives that bind a field to a message broker. -/
def events : List DirectiveDefinition := [
  define Vocabulary.kafkaPublish
    [⟨Vocabulary.topic, required "String", none⟩, provider] [.fieldDefinition],
  define Vocabulary.kafkaSubscribe [⟨Vocabulary.topics, texts, none⟩, provider] [.fieldDefinition],
  define Vocabulary.natsPublish
    [⟨Vocabulary.subject, required "String", none⟩, provider] [.fieldDefinition],
  define Vocabulary.natsRequest
    [⟨Vocabulary.subject, required "String", none⟩, provider] [.fieldDefinition],
  define Vocabulary.natsSubscribe
    [⟨Vocabulary.subjects, texts, none⟩, provider,
      ⟨Vocabulary.streamConfiguration, nullable Vocabulary.streamInput, none⟩]
    [.fieldDefinition]]

/-- The directive that narrows the events of a subscription. -/
def subscriptionFilter : DirectiveDefinition :=
  define Vocabulary.subscriptionFilter
    [⟨"condition", required Vocabulary.filterCondition, none⟩] [.fieldDefinition]

def all : List DirectiveDefinition := base ++ versionTwo ++ events ++ [subscriptionFilter]

def directive? (name : String) : Option DirectiveDefinition := all.find? (·.name = name)

def scalar (name : String) : TypeDefinition :=
  { name, description := none, directives := [], body := .scalar }

private def input (name : String) (type : TypeRef) : InputValueDefinition :=
  { name, type, description := none, default? := none, directives := [] }

private def inputObject (name : String) (fields : List InputValueDefinition) : TypeDefinition :=
  { name, description := none, directives := [], body := .inputObject fields }

/-- The types of the condition of a subscription filter. -/
def filterTypes : List TypeDefinition := [
  inputObject Vocabulary.fieldCondition [
    input "fieldPath" (required "String"),
    input "values" (.list (nullable Vocabulary.filterValue) true)],
  inputObject Vocabulary.filterCondition [
    input "AND" (.list (required Vocabulary.filterCondition) false),
    input "IN" (nullable Vocabulary.fieldCondition),
    input "NOT" (nullable Vocabulary.filterCondition),
    input "OR" (.list (required Vocabulary.filterCondition) false)],
  scalar Vocabulary.filterValue]

end Federation.Catalogue
