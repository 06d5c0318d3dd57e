import Federation.Directive.Conformance
import Federation.Event.Shape
import Federation.FieldSet.Check
import Federation.Implementation

/-!
Diagnostics: the errors that keep a subgraph or a federation from being normalized, the warnings that
do not, and the text of each.
-/

namespace Federation

open Schema

def reportedName (index : Nat) : String := s!"subgraph-{index}"

inductive Warning
  /-- External fields of an interface under the first version of the rules. -/
  | externalInterfaceFields (subgraph typeName : String) (fields : List String)
  /-- An external field that nothing refers to, under the first version of the rules. -/
  | unusedExternal (subgraph coordinates : String)
  | unimplementedInterface (subgraph interfaceName : String)
  | unknownOverrideTarget (target typeName : String) (fields : List String) (source : String)

/-- What a definition repeats inside its parent. -/
inductive Child
  | field (name : String)
  | argument (field name : String)
  | enumValue (name : String)
  | inputValue (name : String)

/-- What is wrong with a key apart from its selections. -/
inductive KeyFault
  | emptyFieldSet

structure OutputArgument where
  argument : String
  type : TypeRef
  kind : TypeKind

structure ContestedField where
  path : String
  subgraphs : List String

inductive Error
  | unreadable
  | duplicateType (kind : TypeKind) (typeName : String)
  | conflictingKinds (typeName : String) (existing incoming : TypeKind)
  | duplicateInterface (kind : TypeKind) (typeName interfaceName : String)
  | duplicateMember (unionName member : String)
  | duplicateChild (parentKind : TypeKind) (parent : String) (child : Child)
  | invalidDirective (directive hostPath : String) (faults : List DirectiveFault)
  | duplicateDirective (directive : String)
  | duplicateDirectiveArguments (directive : String) (arguments : List String)
  | invalidKeys (typeName : String) (faults : List KeyFault)
  /-- Faults of key field sets, each with the field set. -/
  | invalidKeyFieldSets (typeName : String) (faults : List (String × FieldSetFault))
  /-- Faults of the field sets of one directive, each with the field and the field set. -/
  | invalidFieldSets (directive typeName : String) (faults : List (String × String × FieldSetFault))
  | tooManyScopes (limit : Nat) (hostPaths : List String)
  | invalidImplementation (kind : TypeKind) (typeName : String)
      (mismatches : List (String × InterfaceMismatch))
  | implementedNonInterfaces (typeName : String) (kinds : List (String × TypeKind))
  | selfImplementation (typeName : String)
  | outputArguments (fieldPath : String) (arguments : List OutputArgument)
  | undefinedType (typeName : String)
  | noFields (kind : TypeKind) (typeName : String)
  | noEnumValues (typeName : String)
  | noInputValues (typeName : String)
  | noMembers (unionName : String)
  | nonObjectMembers (unionName : String) (kinds : List (String × TypeKind))
  | noBaseScalar (typeName : String)
  | shadowedRootType (operation : Operation) (typeName : String)
  | nonObjectRoot (operation : Operation) (typeName : String) (kind : TypeKind)
  | conflictingRootTypes (operation : Operation) (existing incoming : String)
  | externalInterfaceFields (typeName : String) (fields : List String)
  | unusedExternal (coordinates : String)
  | invalidEvent (directive fieldPath : String) (faults : List Event.Fault)
  | invalidEventGraph (faults : List Event.ShapeFault)
  | misplacedFilter (fieldPath : String)
  | invalidSubgraph (subgraph : String) (errors : List Error)
  /-- Names that are used twice, and the places of subgraphs without a name. -/
  | invalidSubgraphNames (repeated : List String) (unnamed : List Nat)
  | contestedFields (fields : List ContestedField)
  | promoted (warning : Warning)

structure Diagnostics where
  errors : List Error
  warnings : List Warning

namespace Diagnostics

def anyFatal (d : Diagnostics) : Bool := !d.errors.isEmpty

def isEmpty (d : Diagnostics) : Bool := d.errors.isEmpty && d.warnings.isEmpty

/-- Every warning becomes an error after the errors that there are. -/
def promoteWarnings (d : Diagnostics) : Diagnostics :=
  ⟨d.errors ++ d.warnings.map .promoted, []⟩

end Diagnostics

end Federation
