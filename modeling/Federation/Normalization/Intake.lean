import Federation.Normalization.Setting

/-!
The intake of directives: each application on a host is judged in turn, given those accepted before it,
and is then kept on the host, set aside for another use, or refused.
-/

namespace Federation

open Schema

/-- The hosts and directives for which a repetition was seen. -/
abbrev Repeats := OrderedSet (String × String)

inductive Verdict
  | valid
  /-- One more repetition where one was reported. -/
  | ignored
  | refused (faults : List DirectiveFault)

structure Intake where
  accepted : AppliedDirectives
  setAside : List Directive
  repeats : Repeats
  errors : List Error

namespace Intake

/-- Judges an application on a host. A directive that may not be repeated is reported at its first
repetition on a host path, and after that only for other faults. -/
def judge (setting : Setting) (location : Location) (hostPath : String) (accepted : AppliedDirectives)
    (repeats : Repeats) (d : Directive) : Verdict × Repeats :=
  match setting.directive? d.name with
  | none => (.refused [.undefined d.name], repeats)
  | some definition =>
    let misplaced := if location ∈ definition.locations then []
      else [DirectiveFault.misplaced hostPath location d.name definition.locations]
    let faults := misplaced ++ DirectiveConformance.argumentFaults d definition
    let verdict := if faults.isEmpty then .valid else .refused faults
    if definition.isRepeatable || !accepted.contains d.name then (verdict, repeats)
    else if repeats.contains (hostPath, d.name) then
      -- The repetition was reported before; other faults of this application are still news.
      (if faults.isEmpty then .ignored else verdict, repeats)
    else
      (.refused (faults ++ [.notRepeatable d.name]), repeats.insert (hostPath, d.name))

/-- Locations whose authorization directives go to the ledger at once. Those of objects and interfaces
stay with the type. -/
def goesToLedger (location : Location) : Bool :=
  location ∈ [Location.fieldDefinition, .enum, .scalar]

/-- Whether a key with the same field set is there already. -/
def isKnownKey (accepted : AppliedDirectives) (d : Directive) : Bool :=
  match d.string? Vocabulary.fields with
  | none => false
  | some fieldSet =>
    (accepted.named Vocabulary.key).any fun key => key.string? Vocabulary.fields = some fieldSet

def isSetAside (location : Location) (accepted : AppliedDirectives) (d : Directive) : Bool :=
  d.name = Vocabulary.extendsDirective || d.name = Vocabulary.override ||
    (goesToLedger location && d.name ∈ [Vocabulary.authenticated, Vocabulary.requiresScopes]) ||
    (d.name = Vocabulary.key && isKnownKey accepted d)

/-- Whether a valid application takes a field over from its own subgraph. -/
def overridesItself (setting : Setting) (d : Directive) : Bool :=
  d.name = Vocabulary.override && d.string? Vocabulary.fromArgument = some setting.subgraph

def step (setting : Setting) (location : Location) (hostPath : String) (i : Intake) (d : Directive) :
    Intake :=
  match judge setting location hostPath i.accepted i.repeats d with
  | (.ignored, repeats) => { i with repeats }
  | (.refused faults, repeats) =>
    { i with repeats, errors := i.errors ++ [.invalidDirective d.name hostPath faults] }
  | (.valid, repeats) =>
    -- Taking a field over from oneself shows only where the application is otherwise valid.
    if overridesItself setting d then
      { i with
        repeats
        errors := i.errors ++
          [.invalidDirective d.name hostPath [.selfOverride hostPath setting.subgraph]] }
    else if isSetAside location i.accepted d then { i with repeats, setAside := i.setAside ++ [d] }
    else { i with repeats, accepted := i.accepted.add d }

/-- Takes in the applications on a host, after those that are there. -/
def run (setting : Setting) (location : Location) (hostPath : String) (accepted : AppliedDirectives)
    (repeats : Repeats) (applied : List Directive) : Intake :=
  applied.foldl (step setting location hostPath) ⟨accepted, [], repeats, []⟩

/-- Whether a valid application extends a type of another subgraph. -/
def hasExtends (i : Intake) : Bool := i.setAside.any (·.name = Vocabulary.extendsDirective)

/-- The subgraphs that a field is taken over from. -/
def overridden (i : Intake) : List String :=
  (i.setAside.filter (·.name = Vocabulary.override)).filterMap (·.string? Vocabulary.fromArgument)

def authorization (i : Intake) : List Directive :=
  i.setAside.filter (·.name ∈ [Vocabulary.authenticated, Vocabulary.requiresScopes])

end Intake

end Federation
