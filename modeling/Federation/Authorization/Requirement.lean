import Federation.OrderedSet
import Federation.Schema.Directive
import Federation.Vocabulary

/-!
Requirements: whether a client must be authenticated, and which scopes it must hold. Scopes are a list
of alternatives, each a set that must be held in full; without alternatives nothing is asked. Joining
two requirements multiplies their alternatives, so their number is limited.
-/

namespace Federation.Authorization

open Schema

structure Requirement where
  authenticated : Bool
  scopes : List NameSet
  deriving DecidableEq

namespace Requirement

def none : Requirement := ⟨false, []⟩

def isEmpty (r : Requirement) : Bool := !r.authenticated && r.scopes.isEmpty

/-- Whether both requirements together have few enough alternatives. A requirement without
alternatives adds none. -/
def fits (limit : Nat) (target source : Requirement) : Bool :=
  target.scopes.isEmpty || source.scopes.isEmpty ||
    source.scopes.length * target.scopes.length ≤ limit

/-- Each alternative of the one with each of the other. -/
def product (target source : List NameSet) : List NameSet :=
  source.flatMap fun s => target.map fun t => t.union s

/-- Both requirements together. Where they have too many alternatives the scopes of the target stay as
they are. -/
def conjoin (limit : Nat) (target source : Requirement) : Requirement where
  authenticated := target.authenticated || source.authenticated
  scopes :=
    if source.scopes.isEmpty then target.scopes
    else if target.scopes.isEmpty then source.scopes
    else if fits limit target source then product target.scopes source.scopes
    else target.scopes

/-- The alternatives of both, and authentication if either asks for it. -/
def accumulate (r declared : Requirement) : Requirement :=
  ⟨r.authenticated || declared.authenticated, r.scopes ++ declared.scopes⟩

/-- The applications that declare a requirement. -/
def directives (r : Requirement) : List Directive :=
  let scopes := r.scopes.map fun s => Value.list (s.toList.map Value.string)
  (if r.authenticated then [⟨Vocabulary.authenticated, []⟩] else []) ++
    if r.scopes.isEmpty then []
    else [⟨Vocabulary.requiresScopes, [(Vocabulary.scopes, .list scopes)]⟩]

@[simp]
theorem conjoin_none_left (limit : Nat) (r : Requirement) : conjoin limit none r = r := by
  obtain ⟨a, s⟩ := r
  cases s <;> simp [conjoin, none]

end Requirement

/-- Reads a list of lists of strings as alternatives. Empty ones are left out. -/
def scopes? (v : Value) : Option (List NameSet) := do
  let alternatives ← (← v.list?).mapM fun alternative => do
    let names ← (← alternative.list?).mapM Value.string?
    return OrderedSet.ofList names
  return alternatives.filter (!·.isEmpty)

/-- What the authorization directives on one host amount to. -/
inductive Declared
  /-- There are none, one is repeated, or the scopes cannot be read. -/
  | nothing
  /-- More alternatives are listed than are allowed. -/
  | overLimit
  | requirement (r : Requirement)

/-- What a number of applications of the one directive and those of the other amount to. -/
def Declared.of (limit : Nat) (authenticated : Nat) (scopings : List Directive) : Declared :=
  if authenticated > 1 ∨ scopings.length > 1 ∨ (authenticated = 0 ∧ scopings.isEmpty) then nothing
  else
    match scopings.head?.bind (·.argument? Vocabulary.scopes) with
    | none => requirement ⟨authenticated = 1, []⟩
    | some value =>
      if (value.list?.any fun listed => listed.length > limit) then overLimit
      else
        match scopes? value with
        | none => nothing
        | some alternatives => requirement ⟨authenticated = 1, alternatives⟩

end Federation.Authorization
