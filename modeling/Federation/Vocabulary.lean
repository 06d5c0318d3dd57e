/-! Names of directives, arguments, types and fields that mean something to a federation. -/

namespace Federation.Vocabulary

/-! Directives -/

def authenticated : String := "authenticated"
def composeDirective : String := "composeDirective"
def deprecated : String := "deprecated"
def extendsDirective : String := "extends"
def external : String := "external"
def inaccessible : String := "inaccessible"
def interfaceObject : String := "interfaceObject"
def key : String := "key"
def link : String := "link"
def override : String := "override"
def provides : String := "provides"
def requires : String := "requires"
def requiresScopes : String := "requiresScopes"
def shareable : String := "shareable"
def specifiedBy : String := "specifiedBy"
def subscriptionFilter : String := "openfed__subscriptionFilter"
def tag : String := "tag"

def kafkaPublish : String := "edfs__kafkaPublish"
def kafkaSubscribe : String := "edfs__kafkaSubscribe"
def natsPublish : String := "edfs__natsPublish"
def natsRequest : String := "edfs__natsRequest"
def natsSubscribe : String := "edfs__natsSubscribe"

/-- Directives that bind a field to a message broker. -/
def eventDirectives : List String :=
  [kafkaPublish, kafkaSubscribe, natsPublish, natsRequest, natsSubscribe]

/-- Directives of which a single application makes a subgraph follow the second version of the rules. -/
def versionTwoMarkers : List String :=
  [authenticated, composeDirective, inaccessible, interfaceObject, override, requiresScopes,
    shareable, link]

/-! Arguments -/

def consumerName : String := "consumerName"
def fields : String := "fields"
def fromArgument : String := "from"
def providerId : String := "providerId"
def resolvable : String := "resolvable"
def scopes : String := "scopes"
def streamConfiguration : String := "streamConfiguration"
def streamName : String := "streamName"
def subject : String := "subject"
def subjects : String := "subjects"
def topic : String := "topic"
def topics : String := "topics"

/-! Types and fields -/

def fieldSetScalar : String := "openfed__FieldSet"
def scopeScalar : String := "openfed__Scope"
def fieldCondition : String := "openfed__SubscriptionFieldCondition"
def filterCondition : String := "openfed__SubscriptionFilterCondition"
def filterValue : String := "openfed__SubscriptionFilterValue"
def publishResult : String := "edfs__PublishResult"
def streamInput : String := "edfs__NatsStreamConfiguration"
def success : String := "success"
def serviceType : String := "_Service"
def serviceField : String := "_service"
def entityUnion : String := "_Entity"
def entitiesField : String := "_entities"

def builtInScalars : List String := ["Boolean", "Float", "ID", "Int", "String"]

def impliedTypes : List String :=
  builtInScalars ++ ["_Any", fieldSetScalar, scopeScalar, "FieldSet", "link__Import", "link__Purpose"]

/-- The provider of an event that names none. -/
def defaultProvider : String := "default"

/-- The name of a subgraph that has none. -/
def unnamedSubgraph : String := "N/A"

end Federation.Vocabulary
