import Federation.Registry.Basic

/-!
Sightings: how an entry of the registry grows with each definition or extension of its type.
-/

namespace Federation

open Schema

/-- An empty description counts as none. -/
def nonEmptyDescription (description : Option String) : Option String := description.filter (· ≠ "")

/-- The interfaces or members that a definition lists. -/
def Schema.TypeBody.listedNames : TypeBody → List String
  | .interface implements _ | .object implements _ => implements
  | .union members => members
  | _ => []

namespace Shape

/-- The interfaces or members that are listed so far. -/
def listedNames : Shape → NameSet
  | interface c | object c => c.implements
  | union members => members
  | _ => .empty

/-- Adds interfaces to an object or interface, and members to a union. -/
def list (names : List String) : Shape → Shape
  | interface c => interface { c with implements := c.implements.insertAll names }
  | object c => object { c with implements := c.implements.insertAll names }
  | union members => union (members.insertAll names)
  | shape => shape

@[simp]
theorem kind_list (names : List String) (s : Shape) : (s.list names).kind = s.kind := by
  cases s <;> rfl

theorem composite?_list (names : List String) (s : Shape) :
    (s.list names).composite? =
      s.composite?.map fun c => { c with implements := c.implements.insertAll names } := by
  cases s <;> rfl

theorem listedNames_list (t : TypeBody) (s : Shape) (same : s.kind = t.kind) :
    (s.list t.listedNames).listedNames = s.listedNames.insertAll t.listedNames := by
  cases s <;> cases t <;> first | rfl | exact TypeKind.noConfusion same

end Shape

namespace TypeEntry

/-- The entry of a type that is seen for the first time. -/
def first (kind : TypeKind) (description : Option String) (directives : AppliedDirectives)
    (extension : Extension) : TypeEntry where
  description := nonEmptyDescription description
  directives := directives
  extension := extension
  hasBase := extension ≠ .byKeyword
  shape := .ofKind kind

/-- The entry of a type that is seen again. Extending by keyword prevails over everything, the first
base definition over later ones, and the first description over later ones. -/
def again (old : TypeEntry) (description : Option String) (directives : AppliedDirectives)
    (extension : Extension) : TypeEntry where
  description := old.description.or (nonEmptyDescription description)
  directives := directives
  extension :=
    if extension = .byKeyword then .byKeyword
    else if old.hasBase ∨ old.extension = .byKeyword then old.extension
    else extension
  hasBase := old.hasBase || extension ≠ .byKeyword
  shape := old.shape

/-- The entry of a type after one more sighting. -/
def sighted (old? : Option TypeEntry) (kind : TypeKind) (description : Option String)
    (directives : AppliedDirectives) (extension : Extension) : TypeEntry :=
  match old? with
  | none => first kind description directives extension
  | some old => old.again description directives extension

theorem directives_sighted (old? : Option TypeEntry) (kind : TypeKind) (description : Option String)
    (directives : AppliedDirectives) (extension : Extension) :
    (sighted old? kind description directives extension).directives = directives := by
  cases old? <;> rfl

theorem shape_sighted (old? : Option TypeEntry) (kind : TypeKind) (description : Option String)
    (directives : AppliedDirectives) (extension : Extension) :
    (sighted old? kind description directives extension).shape =
      (old?.map TypeEntry.shape).getD (.ofKind kind) := by
  cases old? <;> rfl

/-- Whether a sighting is a base definition beside another. -/
def isSecondBase (old? : Option TypeEntry) (extension : Extension) : Bool :=
  (old?.any TypeEntry.hasBase) && extension ≠ .byKeyword

end TypeEntry

end Federation
