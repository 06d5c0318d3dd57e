/-! Selections of fields, with what decides whether they may stand in a field set. -/

namespace Federation.Schema

/-- A selection. A field is known by its name whatever its alias is, and of its arguments and
directives only their presence is kept. A fragment may not stand in a field set, so nothing is kept. -/
inductive Selection
  | field (name : String) (hasArguments hasDirectives : Bool) (selections : List Selection)
  | fragment

end Federation.Schema
