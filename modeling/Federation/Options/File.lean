import Federation.Batch
import Federation.Options.Toml

/-!
Settings from files. Each kind of settings has a file with the keys it knows, and what is not set there
is as it is without a file. A key that is not known, or is set to a scalar of another kind, makes the
file unusable.
-/

namespace Federation

open Options.Toml (Scalar read?)

namespace Options

/-- The limit that a scalar sets. Limits are not negative. -/
def limit? : Scalar → Option Nat
  | .integer n => n.toNat?
  | _ => none

end Options

def NormalizationOptions.set? (o : NormalizationOptions) : String × Scalar → Option NormalizationOptions
  | ("subgraph_name", .string s) => some { o with subgraphName := s }
  | ("max_or_scopes", v) => (Options.limit? v).map fun n => { o with maxOrScopes := n }
  | ("warnings_are_fatal", .boolean b) => some { o with warningsAreFatal := b }
  | _ => none

def NormalizationOptions.ofToml? (text : String) : Option NormalizationOptions := do
  (← read? text).toList.foldlM set? .default

def BatchOptions.set? (o : BatchOptions) : String × Scalar → Option BatchOptions
  | ("parallel", .boolean b) => some { o with parallel := b }
  | ("max_or_scopes", v) => (Options.limit? v).map fun n => { o with maxOrScopes := n }
  | _ => none

def BatchOptions.ofToml? (text : String) : Option BatchOptions := do
  (← read? text).toList.foldlM set? .default

end Federation
