import Federation.Schema.Operation
import Federation.Table

/-!
Root types. A schema may give a root type a name of its own; its canonical name is the default name of
its operation all the same.
-/

namespace Federation

open Schema

/-- The root types that the schema of a subgraph declares. -/
structure RootTypes where
  byOperation : Table Operation String
  /-- The operation that a type was declared for last. -/
  byTypeName : Table String Operation

namespace RootTypes

def empty : RootTypes := ⟨.empty, .empty⟩

/-- Declares a root type. Where the operation has one already, the first stays. -/
def declare (roots : RootTypes) (operation : Operation) (typeName : String) : RootTypes :=
  if roots.byOperation.contains operation then roots
  else ⟨roots.byOperation.insert operation typeName, roots.byTypeName.insert typeName operation⟩

/-- Whether objects of this name are root types, declared or by default. -/
def isRootName (roots : RootTypes) (typeName : String) : Bool :=
  (Operation.ofDefaultTypeName? typeName).isSome || roots.byTypeName.contains typeName

/-- The default name of the operation that a type is declared for, or else the type's own name. -/
def canonicalName (roots : RootTypes) (typeName : String) : String :=
  match roots.byTypeName.get? typeName with
  | some operation => operation.defaultTypeName
  | none => typeName

/-- The canonical names of root types declared under another name, each with that name. -/
def renamed (roots : RootTypes) : List (String × String) :=
  roots.byOperation.toList.filterMap fun (operation, typeName) =>
    if typeName = operation.defaultTypeName then none
    else some (operation.defaultTypeName, typeName)

/-- The name that a subgraph uses for a type with a canonical name. -/
def localName (roots : RootTypes) (canonicalName : String) : String :=
  ((roots.renamed.find? (·.1 = canonicalName)).map Prod.snd).getD canonicalName

/-- The operation whose root fields the fields of an object are, if they are any. -/
def operation? (roots : RootTypes) (typeName : String) : Option Operation :=
  if roots.isRootName typeName then Operation.ofDefaultTypeName? (roots.canonicalName typeName)
  else none

end RootTypes

end Federation
