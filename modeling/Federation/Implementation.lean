import Federation.Registry.Basic

/-!
Implementations of interfaces. A type implements an interface if it has every field of it, with a type
that narrows the interface's, with the same arguments and no further required ones, and accessible
where the interface's field is.
-/

namespace Federation

open Schema

/-- An argument whose type differs from the interface's. -/
structure ArgumentMismatch where
  argument : String
  expected : String
  actual : String
  deriving DecidableEq

structure FieldMismatch where
  declaredType : String
  /-- The type of the field, where it does not narrow the declared one. -/
  invalidType : Option String
  missingArguments : List String
  mismatchedArguments : List ArgumentMismatch
  /-- Arguments that the interface does not have and that must be given. -/
  extraArguments : List String
  isInaccessible : Bool
  deriving DecidableEq

def FieldMismatch.isNone (m : FieldMismatch) : Bool :=
  m.invalidType.isNone && m.missingArguments.isEmpty && m.mismatchedArguments.isEmpty &&
    m.extraArguments.isEmpty && !m.isInaccessible

structure InterfaceMismatch where
  missingFields : List String
  fields : List (String × FieldMismatch)
  deriving DecidableEq

def InterfaceMismatch.isNone (m : InterfaceMismatch) : Bool :=
  m.missingFields.isEmpty && m.fields.isEmpty

namespace Implementation

/-- Compares a field with the interface's field of that name. -/
def compareField (concrete : ConcreteTypes) (isParentInaccessible : Bool) (declared given : Field) :
    FieldMismatch where
  declaredType := declared.type.text
  invalidType :=
    if TypeRef.narrows concrete.isConcrete declared.type given.type then none
    else some given.type.text
  missingArguments := declared.arguments.keys.filter fun name => !given.arguments.contains name
  mismatchedArguments := declared.arguments.toList.filterMap fun (name, argument) =>
    match given.arguments.get? name with
    | none => none
    | some other =>
      if argument.type = other.type then none
      else some ⟨name, argument.type.text, other.type.text⟩
  extraArguments := given.arguments.toList.filterMap fun (name, argument) =>
    if !declared.arguments.contains name && argument.type.isNonNull && argument.default?.isNone then
      some name
    else none
  isInaccessible :=
    !isParentInaccessible && given.directives.isInaccessible && !declared.directives.isInaccessible

/-- Compares a type with one interface, field by field in the order of the interface. -/
def compare (concrete : ConcreteTypes) (isInaccessible : Bool) (interface given : Composite) :
    InterfaceMismatch where
  missingFields := interface.fields.keys.filter fun name => !given.fields.contains name
  fields := interface.fields.toList.filterMap fun (name, declared) =>
    match given.fields.get? name with
    | none => none
    | some field =>
      let mismatch := compareField concrete isInaccessible declared field
      if mismatch.isNone then none else some (name, mismatch)

/-- How a name in a list of implemented interfaces stands to the type that implements it. -/
inductive Target
  | undefined
  | notInterface (kind : TypeKind)
  | itself
  | interface (composite : Composite)

def target (types : Registry) (typeName interfaceName : String) : Target :=
  match types.get? interfaceName with
  | none => .undefined
  | some entry =>
    match entry.shape with
    | .interface composite => if interfaceName = typeName then .itself else .interface composite
    | shape => .notInterface shape.kind

def undefinedNames (types : Registry) (typeName : String) (c : Composite) : List String :=
  c.implements.toList.filter fun name => target types typeName name matches .undefined

/-- Implemented names that are defined as something else, with their kinds. -/
def nonInterfaces (types : Registry) (typeName : String) (c : Composite) :
    List (String × TypeKind) :=
  c.implements.toList.filterMap fun name =>
    match target types typeName name with
    | .notInterface kind => some (name, kind)
    | _ => none

def implementsItself (types : Registry) (typeName : String) (c : Composite) : Bool :=
  c.implements.toList.any fun name => target types typeName name matches .itself

def interfaces (types : Registry) (typeName : String) (c : Composite) : List (String × Composite) :=
  c.implements.toList.filterMap fun name =>
    match target types typeName name with
    | .interface composite => some (name, composite)
    | _ => none

def mismatches (types : Registry) (concrete : ConcreteTypes) (typeName : String) (isInaccessible : Bool)
    (c : Composite) : List (String × InterfaceMismatch) :=
  (interfaces types typeName c).filterMap fun (name, interface) =>
    let mismatch := compare concrete isInaccessible interface c
    if mismatch.isNone then none else some (name, mismatch)

/-- Fields that some implemented interface asks for, whether the type has them or not. -/
def requiredFields (types : Registry) (typeName : String) (c : Composite) : List String :=
  (interfaces types typeName c).flatMap fun (_, interface) => interface.fields.keys

end Implementation

end Federation
