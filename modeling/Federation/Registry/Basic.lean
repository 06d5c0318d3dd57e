import Federation.OrderedSet
import Federation.Schema.Definition
import Federation.Table
import Federation.Vocabulary

/-!
The registry of one subgraph: every named type with all that its definitions and extensions say. What
follows from the name of an entry, or from the directives on it, is computed and not stored.
-/

namespace Federation

open Schema

/-- The applications of directives on one host, by directive and in order of arrival. -/
abbrev AppliedDirectives := Table String (List Directive)

namespace AppliedDirectives

/-- Puts an application after the others of its directive. -/
def add (applied : AppliedDirectives) (d : Directive) : AppliedDirectives :=
  Table.upsert applied d.name fun earlier => earlier.getD [] ++ [d]

def named (applied : AppliedDirectives) (name : String) : List Directive :=
  Table.getD applied name []

theorem named_add (applied : AppliedDirectives) (d : Directive) (name : String) :
    (applied.add d).named name =
      if name = d.name then applied.named d.name ++ [d] else applied.named name :=
  Table.getD_upsert applied d.name name _ _

@[simp]
theorem named_empty (name : String) : named .empty name = [] := rfl

/-- All applications, those of one directive together. -/
def flatten (applied : AppliedDirectives) : List Directive := applied.values.flatten

end AppliedDirectives

/-- Whether and how the definition of a type extends another. -/
inductive Extension
  | none
  /-- By a directive, where the type that is extended belongs to another subgraph. -/
  | byDirective
  /-- By the keyword. -/
  | byKeyword
  deriving DecidableEq

/-- An argument of a field or a field of an input object. -/
structure InputValue where
  type : TypeRef
  default? : Option Value
  directives : AppliedDirectives
  description : Option String

structure Field where
  type : TypeRef
  arguments : Table String InputValue
  directives : AppliedDirectives
  description : Option String
  /-- Whether another subgraph is said to resolve the field. -/
  isExternal : Bool

structure EnumValue where
  description : Option String
  directives : AppliedDirectives

/-- What objects and interfaces consist of. -/
structure Composite where
  fields : Table String Field
  implements : NameSet

/-- What a registered type of each kind consists of. -/
inductive Shape
  | enum (values : Table String EnumValue)
  | inputObject (fields : Table String InputValue)
  | interface (composite : Composite)
  | object (composite : Composite)
  | scalar
  | union (members : NameSet)

namespace Shape

def kind : Shape → TypeKind
  | enum _ => .enum
  | inputObject _ => .inputObject
  | interface _ => .interface
  | object _ => .object
  | scalar => .scalar
  | union _ => .union

def composite? : Shape → Option Composite
  | interface c | object c => some c
  | _ => none

/-- A shape of a kind with nothing in it. -/
def ofKind : TypeKind → Shape
  | .enum => enum .empty
  | .inputObject => inputObject .empty
  | .interface => interface ⟨.empty, .empty⟩
  | .object => object ⟨.empty, .empty⟩
  | .scalar => scalar
  | .union => union .empty

/-- Changes what an object or interface consists of. -/
def mapComposite (f : Composite → Composite) : Shape → Shape
  | interface c => interface (f c)
  | object c => object (f c)
  | shape => shape

theorem kind_ofKind (k : TypeKind) : (ofKind k).kind = k := by cases k <;> rfl

@[simp]
theorem kind_mapComposite (f : Composite → Composite) (s : Shape) :
    (s.mapComposite f).kind = s.kind := by cases s <;> rfl

end Shape

/-- One named type over all its definitions and extensions. -/
structure TypeEntry where
  description : Option String
  directives : AppliedDirectives
  extension : Extension
  /-- Whether a definition without the keyword for extensions was seen. -/
  hasBase : Bool
  shape : Shape

namespace TypeEntry

def kind (t : TypeEntry) : TypeKind := t.shape.kind

def composite? (t : TypeEntry) : Option Composite := t.shape.composite?

/-- Whether the type declares a key. -/
def isEntity (t : TypeEntry) : Bool := t.directives.contains Vocabulary.key

end TypeEntry

/-- Whether the host of the directives is kept from clients. -/
def AppliedDirectives.isInaccessible (applied : AppliedDirectives) : Bool :=
  Table.contains applied Vocabulary.inaccessible

/-- All named types of a subgraph. -/
abbrev Registry := Table String TypeEntry

namespace Registry

def kind? (types : Registry) (name : String) : Option TypeKind :=
  (Table.get? types name).map TypeEntry.kind

/-- The fields and interfaces of a registered object or interface. -/
def composite? (types : Registry) (name : String) : Option Composite :=
  (Table.get? types name).bind TypeEntry.composite?

/-- Whether a name belongs to an object or interface with a key. -/
def isEntity (types : Registry) (name : String) : Bool :=
  (Table.get? types name).any fun t => t.composite?.isSome && t.isEntity

end Registry

/-- The concrete types of abstract types: members of unions and implementations of interfaces. -/
abbrev ConcreteTypes := Table String NameSet

namespace ConcreteTypes

def of (concrete : ConcreteTypes) (abstractName : String) : NameSet :=
  Table.getD concrete abstractName .empty

def add (concrete : ConcreteTypes) (abstractName concreteName : String) : ConcreteTypes :=
  Table.upsert concrete abstractName fun names => (names.getD .empty).insert concreteName

def isConcrete (concrete : ConcreteTypes) (abstractName concreteName : String) : Bool :=
  (concrete.of abstractName).contains concreteName

@[simp]
theorem of_empty (abstractName : String) : of .empty abstractName = .empty := rfl

theorem mem_of_add {concrete : ConcreteTypes} {abstractName concreteName other name : String} :
    name ∈ ((concrete.add abstractName concreteName).of other).toList ↔
      name ∈ (concrete.of other).toList ∨ (other = abstractName ∧ name = concreteName) := by
  unfold of add
  rw [Table.getD_upsert]
  split
  · next same => subst same; simp [Table.getD]
  · next different => simp [different]

end ConcreteTypes

end Federation
