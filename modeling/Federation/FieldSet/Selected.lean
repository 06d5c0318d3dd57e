import Federation.Registry.Basic
import Federation.Schema.Selection

/-!
Field sets as trees of selections: the fields they select, the conditions under which fields of other
subgraphs become available through them, and their canonical text.
-/

namespace Federation

open Schema

def Registry.field? (types : Registry) (parent field : String) : Option Field :=
  (types.composite? parent).bind fun c => c.fields.get? field

/-- A field together with the type that declares it, as messages name it. -/
def coordinates (parent field : String) : String := s!"{parent}.{field}"

/-- The way to an external field: every step from the host or from the top of the field set, once by
coordinates and once by name. The field itself is the last step. -/
structure Condition where
  coordinatesPath : List String
  fieldPath : List String
  deriving DecidableEq

namespace FieldSet

def topLevelNames (selections : List Selection) : List String :=
  selections.filterMap fun
    | .field name _ _ _ => some name
    | .fragment => none

mutual

/-- The words of a selection: its name, and its own selections between braces. -/
def words : Selection → List String
  | .fragment => []
  | .field name _ _ [] => [name]
  | .field name _ _ (first :: rest) =>
    name :: "\x7b" :: (words first ++ listWords rest) ++ ["\x7d"]

def listWords : List Selection → List String
  | [] => []
  | s :: rest => words s ++ listWords rest

end

/-- The text of a field set with one space between each two words. -/
def canonicalText (selections : List Selection) : String := " ".intercalate (listWords selections)

mutual

/-- The coordinates of a selected field and of all fields selected below it, in order. -/
def selectedCoordinates (types : Registry) (parent : String) : Selection → List String
  | .fragment => []
  | .field name _ _ selections =>
    coordinates parent name ::
      match types.field? parent name with
      | none => []
      | some field => listCoordinates types field.type.namedType selections

def listCoordinates (types : Registry) (parent : String) : List Selection → List String
  | [] => []
  | s :: rest => selectedCoordinates types parent s ++ listCoordinates types parent rest

end

structure Step where
  coordinates : String
  name : String

def Condition.ofPath (path : List Step) : Condition :=
  ⟨path.map Step.coordinates, path.map Step.name⟩

mutual

/-- The external fields among a selected field and those below it, by coordinates and in order, each
with the way to it. -/
def conditions (types : Registry) (path : List Step) (parent : String) :
    Selection → List (String × Condition)
  | .fragment => []
  | .field name _ _ selections =>
    match types.field? parent name with
    | none => []
    | some field =>
      let path := path ++ [⟨coordinates parent name, name⟩]
      (if field.isExternal then [(coordinates parent name, Condition.ofPath path)] else []) ++
        listConditions types path field.type.namedType selections

def listConditions (types : Registry) (path : List Step) (parent : String) :
    List Selection → List (String × Condition)
  | [] => []
  | s :: rest => conditions types path parent s ++ listConditions types path parent rest

end

end FieldSet

end Federation
