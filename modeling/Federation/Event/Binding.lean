import Federation.Event.Stream
import Federation.Registry.Basic
import Federation.Text.Template

/-! Bindings of root fields to the operations of a message broker, as event directives declare them. -/

namespace Federation.Event

open Schema

inductive Provider
  | kafka
  | nats
  deriving DecidableEq

def Provider.text : Provider → String
  | kafka => "kafka"
  | nats => "nats"

inductive Kind
  | publish
  | request
  | subscribe
  deriving DecidableEq

def Kind.text : Kind → String
  | publish => "publish"
  | request => "request"
  | subscribe => "subscribe"

/-- One field bound to one operation of a broker. -/
structure Binding where
  field : String
  providerId : String
  provider : Provider
  kind : Kind
  /-- Topics or subjects, which may be templates over the arguments of the field. -/
  subjects : List String
  stream? : Option StreamConfiguration
  deriving DecidableEq

inductive Fault
  | providerId
  | subject (argument : String)
  | notList (argument : String)
  | listedSubject (argument : String)
  | reference (template argument : String)
  | stream (fault : StreamConfiguration.Fault)

def Fault.message : Fault → String
  | providerId => s!"The \"{Vocabulary.providerId}\" argument must be a non-empty string."
  | subject argument => s!"The \"{argument}\" argument must be a non-empty string."
  | notList argument => s!"The \"{argument}\" argument must be a list of strings."
  | listedSubject argument => s!"Each item of the \"{argument}\" argument must be a non-empty string."
  | reference template argument =>
    s!"The template \"{template}\" references the argument \"{argument}\", which is not defined on the field."
  | stream .notObject =>
    s!"The \"{Vocabulary.streamConfiguration}\" argument must be a non-empty input object."
  | stream (.fields problems) =>
    s!"The \"{Vocabulary.streamConfiguration}\" argument is invalid: {problems.text}."

inductive SubjectArgument
  | single (name : String)
  | list (name : String)

/-- What an event directive declares apart from its arguments. -/
structure BrokerOperation where
  provider : Provider
  kind : Kind
  subjects : SubjectArgument
  takesStream : Bool

def operationOf (directive : String) : BrokerOperation :=
  if directive = Vocabulary.kafkaPublish then ⟨.kafka, .publish, .single Vocabulary.topic, false⟩
  else if directive = Vocabulary.kafkaSubscribe then
    ⟨.kafka, .subscribe, .list Vocabulary.topics, false⟩
  else if directive = Vocabulary.natsPublish then
    ⟨.nats, .publish, .single Vocabulary.subject, false⟩
  else if directive = Vocabulary.natsRequest then
    ⟨.nats, .request, .single Vocabulary.subject, false⟩
  -- Only five directives bind events, so what is left is the last of them.
  else ⟨.nats, .subscribe, .list Vocabulary.subjects, true⟩

def referenceFaults (arguments : Table String InputValue) (template : String) : List Fault :=
  (Text.Template.argumentNames template).filterMap fun name =>
    if arguments.contains name then none else some (.reference template name)

/-- Reads subjects up to the first that is no text, with what is wrong on the way. -/
def listedSubjects (arguments : Table String InputValue) (argument : String) :
    List Value → List String × List Fault
  | [] => ([], [])
  | v :: rest =>
    match v.nonEmptyString? with
    | none => ([], [.listedSubject argument])
    | some subject =>
      let (subjects, faults) := listedSubjects arguments argument rest
      (subject :: subjects, referenceFaults arguments subject ++ faults)

def subjects (arguments : Table String InputValue) (d : Directive) :
    SubjectArgument → List String × List Fault
  | .single name =>
    match (d.argument? name).bind Value.nonEmptyString? with
    | none => ([], [.subject name])
    | some subject => ([subject], referenceFaults arguments subject)
  | .list name =>
    match (d.argument? name).bind Value.list? with
    | none => ([], [.notList name])
    | some values => listedSubjects arguments name values

/-- The provider of a directive. Where none is given, it is the default one. -/
def providerId (d : Directive) : String × List Fault :=
  match d.argument? Vocabulary.providerId with
  | none => (Vocabulary.defaultProvider, [])
  | some value =>
    match value.nonEmptyString? with
    | some id => (id, [])
    | none => (Vocabulary.defaultProvider, [.providerId])

def stream (d : Directive) : Option StreamConfiguration × List Fault :=
  match d.argument? Vocabulary.streamConfiguration with
  | none => (none, [])
  | some value =>
    match StreamConfiguration.read value with
    | .ok configuration? => (configuration?, [])
    | .error fault => (none, [.stream fault])

/-- The binding that an event directive declares on a field with the given arguments. -/
def bind (field : String) (arguments : Table String InputValue) (d : Directive) :
    Except (List Fault) Binding :=
  let operation := operationOf d.name
  let (providerId, providerFaults) := providerId d
  let (subjects, subjectFaults) := subjects arguments d operation.subjects
  let (stream?, streamFaults) := if operation.takesStream then stream d else (none, [])
  let faults := providerFaults ++ subjectFaults ++ streamFaults
  if faults.isEmpty then
    .ok { field, providerId, subjects, stream?, provider := operation.provider, kind := operation.kind }
  else .error faults

def directives (applied : AppliedDirectives) : List Directive :=
  applied.toList.flatMap fun (name, ds) => if name ∈ Vocabulary.eventDirectives then ds else []

end Federation.Event
