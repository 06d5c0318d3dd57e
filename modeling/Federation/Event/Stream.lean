import Federation.OrderedSet
import Federation.Schema.Value
import Federation.Vocabulary

/-!
Stream configurations: an object that names a consumer and a stream, each once and neither empty, and
nothing else. Its fields are read one after the other, and what is wrong with them is collected.
-/

namespace Federation.Event

open Schema

structure StreamConfiguration where
  consumerName : String
  streamName : String
  deriving DecidableEq

/-- The fields of a stream configuration that are not as they should be, by what is wrong. -/
structure StreamProblems where
  missing : NameSet
  repeated : NameSet
  invalid : NameSet
  unknown : NameSet
  deriving DecidableEq

namespace StreamProblems

def isNone (p : StreamProblems) : Bool :=
  p.missing.isEmpty && p.repeated.isEmpty && p.invalid.isEmpty && p.unknown.isEmpty

private def part (names : NameSet) (finding : String) : Option String :=
  if names.isEmpty then none
  else
    let quoted := ", ".intercalate (names.toList.map fun name => s!"\"{name}\"")
    some s!"{quoted} ({finding})"

def text (p : StreamProblems) : String :=
  "; ".intercalate <| [part p.missing "missing", part p.repeated "defined more than once",
    part p.invalid "not non-empty strings", part p.unknown "not valid fields"].filterMap id

end StreamProblems

namespace StreamConfiguration

def fieldNames : List String := [Vocabulary.consumerName, Vocabulary.streamName]

/-- What was made of the fields of an object up to now. A name is missing until it is given first. -/
structure Progress where
  problems : StreamProblems
  consumerName? : Option String
  streamName? : Option String

namespace Progress

def start : Progress := ⟨⟨.ofList fieldNames, .empty, .empty, .empty⟩, none, none⟩

/-- Takes the text that a name is given for the first time. -/
def accept (p : Progress) (name : String) (v : Value) : Progress :=
  match v.nonEmptyString? with
  | none => { p with problems.invalid := p.problems.invalid.insert name }
  | some text =>
    if name = Vocabulary.consumerName then { p with consumerName? := some text }
    else { p with streamName? := some text }

/-- One more field. Of a name that is given again only the first value is looked at. -/
def step (p : Progress) (field : String × Value) : Progress :=
  if field.1 ∉ fieldNames then { p with problems.unknown := p.problems.unknown.insert field.1 }
  else if !p.problems.missing.contains field.1 then
    { p with problems.repeated := p.problems.repeated.insert field.1 }
  else
    { p with problems.missing := p.problems.missing.filter (· ≠ field.1) }.accept field.1 field.2

end Progress

def scan (fields : List (String × Value)) : Progress := fields.foldl Progress.step .start

inductive Fault
  /-- The value is no object, or one without fields. -/
  | notObject
  | fields (problems : StreamProblems)
  deriving DecidableEq

/-- The configuration that a value gives. Without both of its names there is none. -/
def read (v : Value) : Except Fault (Option StreamConfiguration) :=
  match v with
  | .object (first :: rest) =>
    let progress := scan (first :: rest)
    if progress.problems.isNone then
      .ok do return ⟨← progress.consumerName?, ← progress.streamName?⟩
    else .error (.fields progress.problems)
  | _ => .error .notObject

end StreamConfiguration

end Federation.Event
