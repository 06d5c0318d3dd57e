import Federation.FieldSet.Selected
import Federation.Grammar.Selection

/-!
The check of a field set against the registry: it is made of fields alone, each declared on its parent,
each with selections of its own exactly where its type has fields.
-/

namespace Federation

open Schema

/-- What a field set is declared for. -/
inductive FieldSetUse
  | key
  | provides
  | requires
  deriving DecidableEq

inductive FieldSetFault
  | unreadable
  | notComposite (typeName : String)
  | fragment (parent : String)
  | arguments (coordinates : String)
  | directives (coordinates : String)
  | undefinedField (coordinates : String)
  | abstractInKey (coordinates typeName : String)
  | missingSelections (coordinates typeName : String)
  | leafSelections (coordinates typeName : String)

namespace FieldSetFault

private def reason : FieldSetFault → String
  | unreadable => "<parse error>"
  | notComposite typeName =>
    s!"\"{typeName}\" is not an object or interface, so it cannot define a selection set."
  | fragment parent => s!"fragments are not supported, but one is selected on \"{parent}\"."
  | arguments coordinates => s!"the field \"{coordinates}\" must not define arguments."
  | directives coordinates => s!"the field \"{coordinates}\" must not define directives."
  | undefinedField coordinates => s!"the field \"{coordinates}\" is not defined."
  | abstractInKey coordinates typeName =>
    s!"the field \"{coordinates}\" returns the abstract type \"{typeName}\", which cannot be part of a key."
  | missingSelections coordinates typeName =>
    s!"the field \"{coordinates}\" returns the composite type \"{typeName}\", so it must define a selection set."
  | leafSelections coordinates typeName =>
    s!"the field \"{coordinates}\" returns the leaf type \"{typeName}\", so it must not define a selection set."

def message (fieldSet : String) (fault : FieldSetFault) : String :=
  let finding := match fault with
    | unreadable => "could not be parsed"
    | _ => "is invalid"
  s!"The field set \"{fieldSet}\" {finding}: {reason fault}"

end FieldSetFault

namespace FieldSet

/-- What the type of a field asks of the selections below it. -/
inductive Below
  | selections
  | nothing
  | refused
  deriving DecidableEq

/-- Objects have selections. So have interfaces and unions, which no key may pass through. -/
def below (types : Registry) (use : FieldSetUse) (typeName : String) : Below :=
  match types.kind? typeName with
  | some .object => .selections
  | some .interface | some .union => if use = .key then .refused else .selections
  | _ => .nothing

/-- Faults on a type with fields, or the fault that it has none. -/
def onComposite (types : Registry) (parent : String) (faults : Composite → List FieldSetFault) :
    List FieldSetFault :=
  match types.composite? parent with
  | none => [.notComposite parent]
  | some composite => faults composite

mutual

def selectionFaults (types : Registry) (use : FieldSetUse) (parent : String) (composite : Composite) :
    Selection → List FieldSetFault
  | .fragment => [.fragment parent]
  | .field name hasArguments hasDirectives selections =>
    let here := coordinates parent name
    if hasArguments then [.arguments here]
    else if hasDirectives then [.directives here]
    else
      match composite.fields.get? name with
      | none => [.undefinedField here]
      | some field =>
        let target := field.type.namedType
        match below types use target, selections.isEmpty with
        | .refused, _ => [.abstractInKey here target]
        | .selections, true => [.missingSelections here target]
        | .selections, false =>
          onComposite types target fun c => listFaults types use target c selections
        | .nothing, true => []
        | .nothing, false => [.leafSelections here target]

def listFaults (types : Registry) (use : FieldSetUse) (parent : String) (composite : Composite) :
    List Selection → List FieldSetFault
  | [] => []
  | s :: rest =>
    selectionFaults types use parent composite s ++ listFaults types use parent composite rest

end

def faults (types : Registry) (use : FieldSetUse) (parent : String) (selections : List Selection) :
    List FieldSetFault :=
  onComposite types parent fun c => listFaults types use parent c selections

/-- The selections of a field set that may stand on a type, or why it may not. -/
def check (types : Registry) (use : FieldSetUse) (parent fieldSet : String) :
    Except (List FieldSetFault) (List Selection) :=
  match Grammar.readFieldSet? fieldSet with
  | none => .error [.unreadable]
  | some selections =>
    match faults types use parent selections with
    | [] => .ok selections
    | found => .error found

end FieldSet

end Federation
