import Federation.FieldSet.Check
import Federation.Normalization.Survey
import Federation.Text.Blank

/-!
The field sets that a subgraph declares for its keys and for what its fields provide and require, each
with the outcome of its check.
-/

namespace Federation.FieldSet

open Schema

structure DeclaredKey where
  typeName : String
  fieldSet : String
  isResolvable : Bool
  outcome : Except (List FieldSetFault) (List Selection)

namespace DeclaredKey

/-- A field set of white space is reported apart. -/
def isBlank (k : DeclaredKey) : Bool := Text.trim k.fieldSet = ""

/-- The selections of a key that can be used. -/
def selections? (k : DeclaredKey) : Option (List Selection) :=
  if k.isBlank then none
  else
    match k.outcome with
    | .ok selections => some selections
    | .error _ => none

def faults (k : DeclaredKey) : List FieldSetFault :=
  if k.isBlank then []
  else
    match k.outcome with
    | .ok _ => []
    | .error faults => faults

/-- The coordinates of all fields that a valid key selects. -/
def coordinates (types : Registry) (k : DeclaredKey) : List String :=
  match k.selections? with
  | none => []
  | some selections => listCoordinates types k.typeName selections

end DeclaredKey

def keysOf (types : Registry) (typeName : String) (sets : KeySets) : List DeclaredKey :=
  sets.toList.map fun (fieldSet, isResolvable) =>
    { typeName, fieldSet, isResolvable, outcome := check types .key typeName fieldSet }

/-- What a field provides or requires. -/
structure DeclaredSelection where
  use : FieldSetUse
  typeName : String
  field : String
  fieldSet : String
  /-- The type whose fields are selected. -/
  target : String
  outcome : Except (List FieldSetFault) (List Selection)

namespace DeclaredSelection

def selections? (d : DeclaredSelection) : Option (List Selection) :=
  match d.outcome with
  | .ok selections => some selections
  | .error _ => none

def faults (d : DeclaredSelection) : List FieldSetFault :=
  match d.outcome with
  | .ok _ => []
  | .error faults => faults

/-- The steps before the first selection: the field itself, where it provides others. -/
def host (d : DeclaredSelection) : List Step :=
  if d.use = .provides then [⟨Federation.coordinates d.typeName d.field, d.field⟩] else []

def coordinates (types : Registry) (d : DeclaredSelection) : List String :=
  match d.selections? with
  | none => []
  | some selections => listCoordinates types d.target selections

/-- The external fields among the selected ones, each with the way to it. -/
def conditions (types : Registry) (d : DeclaredSelection) : List (String × Condition) :=
  match d.selections? with
  | none => []
  | some selections => listConditions types d.host d.target selections

end DeclaredSelection

/-- What the fields of a type provide, in order of arrival. A field provides fields of its own type. -/
def providedOn (types : Registry) (typeName : String) (sets : FieldSets) : List DeclaredSelection :=
  sets.provides.toList.map fun (field, fieldSet) =>
    let target := ((types.field? typeName field).map fun f => f.type.namedType).getD ""
    { use := .provides, typeName, field, fieldSet, target
      outcome := check types .provides target fieldSet }

/-- What the fields of a type require, in order of arrival. A field requires fields beside it. -/
def requiredOn (types : Registry) (typeName : String) (sets : FieldSets) : List DeclaredSelection :=
  sets.requires.toList.map fun (field, fieldSet) =>
    { use := .requires, typeName, field, fieldSet, target := typeName
      outcome := check types .requires typeName fieldSet }

/-- What the fields of a type provide, and then what they require. -/
def selectionsOn (types : Registry) (typeName : String) (sets : FieldSets) : List DeclaredSelection :=
  providedOn types typeName sets ++ requiredOn types typeName sets

def keyErrors (typeName : String) (keys : List DeclaredKey) : List Error :=
  let blank := (keys.filter DeclaredKey.isBlank).map fun _ => KeyFault.emptyFieldSet
  let faults := keys.flatMap fun k => k.faults.map fun fault => (k.fieldSet, fault)
  (if blank.isEmpty then [] else [.invalidKeys typeName blank]) ++
    if faults.isEmpty then [] else [.invalidKeyFieldSets typeName faults]

/-- The error of the field sets that stand in one directive on the fields of a type. -/
def selectionErrors (directive typeName : String) (declared : List DeclaredSelection) : List Error :=
  let faults := declared.flatMap fun d => d.faults.map fun fault => (d.field, d.fieldSet, fault)
  if faults.isEmpty then [] else [.invalidFieldSets directive typeName faults]

end Federation.FieldSet
