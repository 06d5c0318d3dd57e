import Federation.Diagnostic.Basic

/-! The text of every error and warning. Lists in it have one item on each line. -/

namespace Federation

open Schema

namespace Diagnostic

def bullets (items : List String) : String := String.join (items.map fun item => "\n - " ++ item)

def quoted (names : List String) : String := ", ".intercalate (names.map fun name => s!"\"{name}\"")

def kindBullets (kinds : List (String × TypeKind)) : String :=
  bullets (kinds.map fun (name, kind) => s!"\"{name}\", which is type \"{kind.text}\"")

end Diagnostic

open Diagnostic

def Warning.message : Warning → String
  | externalInterfaceFields subgraph typeName fields =>
    s!"[{subgraph}] The interface \"{typeName}\" declares the following field(s) \"@external\", which is only tolerated in V1 subgraphs:{bullets fields}"
  | unusedExternal subgraph coordinates =>
    s!"[{subgraph}] The field \"{coordinates}\" is declared \"@external\", but it is not used in any key, provides, requires or interface implementation."
  | unimplementedInterface subgraph interfaceName =>
    s!"[{subgraph}] The interface \"{interfaceName}\" is used as an output type without any object implementations."
  | unknownOverrideTarget target typeName fields source =>
    s!"[{source}] The field(s) {quoted fields} of \"{typeName}\" declare \"@override(from: \"{target}\")\", but no subgraph named \"{target}\" exists."

namespace Child

def sort : Child → String
  | field _ => "field"
  | argument _ _ => "argument"
  | enumValue _ => "enum value"
  | inputValue _ => "input value"

def path : Child → String
  | field name | enumValue name | inputValue name => name
  | argument host name => s!"{host}({name})"

end Child

def KeyFault.message : KeyFault → String
  | emptyFieldSet => s!"The \"{Vocabulary.fields}\" argument must not be an empty field set."

def OutputArgument.text (a : OutputArgument) : String :=
  s!"The argument \"{a.argument}\" is of type \"{a.type.text}\", but \"{a.type.namedType}\" is type \"{a.kind.text}\"."

def ContestedField.text (f : ContestedField) : String :=
  s!"\"{f.path}\" is overridden by the subgraphs {quoted f.subgraphs}."

def FieldMismatch.text (m : FieldMismatch) : String :=
  let type := match m.invalidType with
    | none => ""
    | some given =>
      s!"\n      the response type \"{given}\" is not a valid implementation of \"{m.declaredType}\"."
  let missing := m.missingArguments.map fun name =>
    s!"\n      the argument \"{name}\" is not implemented."
  let mismatched := m.mismatchedArguments.map fun a =>
    s!"\n      the argument \"{a.argument}\" must be type \"{a.expected}\", not \"{a.actual}\"."
  let extra := m.extraArguments.map fun name =>
    s!"\n      the additional argument \"{name}\" must be nullable."
  let access := if m.isInaccessible then
      "\n      the field is declared \"@inaccessible\", but the interface field is not."
    else ""
  type ++ String.join missing ++ String.join mismatched ++ String.join extra ++ access

def InterfaceMismatch.text (m : InterfaceMismatch) : String :=
  let missing := m.missingFields.map fun name => s!"\n   - the field \"{name}\" is not implemented."
  let fields := m.fields.map fun (name, mismatch) =>
    s!"\n   - the field \"{name}\" is invalid:" ++ mismatch.text
  String.join missing ++ String.join fields

namespace Error

mutual

def message : Error → String
  | unreadable => "The subgraph has syntax errors and could not be parsed:\n <parse error>"
  | duplicateType kind typeName => s!"The {kind.text} \"{typeName}\" can only be defined once."
  | conflictingKinds typeName existing incoming =>
    s!"The named type \"{typeName}\" is defined as both types \"{existing.text}\" and \"{incoming.text}\".\nHowever, there must be only one type named \"{typeName}\"."
  | duplicateInterface kind typeName interfaceName =>
    s!"The {kind.text} \"{typeName}\" declares that it implements the interface \"{interfaceName}\" more than once."
  | duplicateMember unionName member =>
    s!"The union \"{unionName}\" declares the member \"{member}\" more than once."
  | duplicateChild parentKind parent child =>
    s!"The {parentKind.text} \"{parent}\" defines the {child.sort} \"{child.path}\" more than once."
  | invalidDirective directive hostPath faults =>
    s!"The directive \"@{directive}\" declared on \"{hostPath}\" is invalid for the following reason(s):" ++
      bullets (faults.map DirectiveFault.message)
  | duplicateDirective directive => s!"The directive \"@{directive}\" is defined more than once."
  | duplicateDirectiveArguments directive arguments =>
    s!"The directive \"@{directive}\" defines the following arguments more than once: " ++
      ", ".intercalate arguments
  | invalidKeys typeName faults =>
    s!"The entity \"{typeName}\" defines the following invalid \"@key\" directives:" ++
      bullets (faults.map KeyFault.message)
  | invalidKeyFieldSets typeName faults =>
    s!"The entity \"{typeName}\" defines the following invalid key field sets:" ++
      bullets (faults.map fun (fieldSet, fault) => fault.message fieldSet)
  | invalidFieldSets directive typeName faults =>
    s!"The following \"@{directive}\" field sets declared on fields of \"{typeName}\" are invalid:" ++
      bullets (faults.map fun (field, fieldSet, fault) =>
        s!"On \"{coordinates typeName field}\": " ++ fault.message fieldSet)
  | tooManyScopes limit hostPaths =>
    s!"The maximum number of OR scopes that can be defined by \"@requiresScopes\" on a single field or type is {limit}; however, the following path(s) attempt to exceed that limit:" ++
      bullets hostPaths
  | invalidImplementation kind typeName mismatches =>
    s!"The {kind.text} \"{typeName}\" has the following interface implementation errors:" ++
      String.join (mismatches.map fun (name, mismatch) =>
        s!"\n  Interface \"{name}\":" ++ mismatch.text)
  | implementedNonInterfaces typeName kinds =>
    s!"The type \"{typeName}\" implements the following type(s) that are not interfaces:" ++
      kindBullets kinds
  | selfImplementation typeName => s!"The interface \"{typeName}\" must not implement itself."
  | outputArguments fieldPath arguments =>
    s!"The field \"{fieldPath}\" defines the following arguments whose types are not valid input types:" ++
      bullets (arguments.map OutputArgument.text)
  | undefinedType typeName =>
    s!"The type \"{typeName}\" was referenced in the schema, but it was never defined."
  | noFields kind typeName =>
    s!"The {kind.text} \"{typeName}\" is invalid because it does not define any fields."
  | noEnumValues typeName => s!"The enum \"{typeName}\" must define at least one value."
  | noInputValues typeName => s!"The input object \"{typeName}\" must define at least one input value."
  | noMembers unionName => s!"The union \"{unionName}\" must define at least one member."
  | nonObjectMembers unionName kinds =>
    s!"The union \"{unionName}\" defines the following members that are not object types:" ++
      kindBullets kinds
  | noBaseScalar typeName =>
    s!"The scalar extension \"{typeName}\" is invalid because no base scalar definition was found."
  | shadowedRootType operation typeName =>
    s!"The schema defines the {operation.text} root type as \"{typeName}\", so the type \"{operation.defaultTypeName}\" must not also be defined."
  | nonObjectRoot operation typeName kind =>
    s!"The {operation.text} root type \"{typeName}\" must be an object type, but it is defined as \"{kind.text}\"."
  | conflictingRootTypes operation existing incoming =>
    s!"The {operation.text} root type was defined as \"{existing}\" and cannot also be defined as \"{incoming}\"."
  | externalInterfaceFields typeName fields =>
    s!"The interface \"{typeName}\" is invalid because the following field(s) are declared \"@external\":" ++
      bullets fields
  | unusedExternal coordinates =>
    s!"The field \"{coordinates}\" is declared \"@external\", but it is not used in any key, provides, requires or interface implementation."
  | invalidEvent directive fieldPath faults =>
    s!"The event directive \"@{directive}\" declared on \"{fieldPath}\" is invalid for the following reason(s):" ++
      bullets (faults.map Event.Fault.message)
  | invalidEventGraph faults =>
    "An event-driven graph is invalid for the following reason(s):" ++
      bullets (faults.map Event.ShapeFault.message)
  | misplacedFilter fieldPath =>
    s!"The \"@{Vocabulary.subscriptionFilter}\" directive is declared on \"{fieldPath}\", but it is only valid on fields of the subscription root type of an event-driven graph."
  | invalidSubgraph subgraph errors =>
    s!"The subgraph \"{subgraph}\" could not be normalized for the following reason(s):" ++
      messageBullets errors
  | invalidSubgraphNames repeated unnamed =>
    let notUnique := if repeated.isEmpty then ""
      else "\nThe following subgraph names are not unique:" ++ bullets repeated
    let notNamed := unnamed.map fun index =>
      s!"\nThe subgraph at index {index} is not named. It is reported as \"{reportedName index}\"."
    "Subgraphs to be federated must each have a unique, non-empty name." ++ notUnique ++
      String.join notNamed
  | contestedFields fields =>
    "The following field(s) are overridden by more than one subgraph:" ++
      bullets (fields.map ContestedField.text)
  | promoted warning => warning.message

def messageBullets : List Error → String
  | [] => ""
  | e :: rest => "\n - " ++ e.message ++ messageBullets rest

end

end Error

end Federation
