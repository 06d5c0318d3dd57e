import Federation.Authorization.Ledger
import Federation.Registry.Roots

/-!
Inheritance of requirements. The fields of a type take over what the type requires, the fields of an
object what an interface with a requirement of its own asks of the same fields, and a field whose type
is an enum or a scalar what that type requires.
-/

namespace Federation.Authorization

open Schema

/-- What the directives on an object or interface require. -/
def typeLevel (limit : Nat) (applied : AppliedDirectives) : Declared :=
  Declared.of limit (applied.named Vocabulary.authenticated).length
    (applied.named Vocabulary.requiresScopes)

namespace Ledger

/-- Writes the requirement of a type and passes it on to the given fields. -/
def coverFields (limit : Nat) (typeName canonicalName : String) (fields : List String)
    (r : Requirement) (l : Ledger) : Ledger :=
  let l := { l with
    records := l.records.update canonicalName fun record =>
      { record with coversFields := true, requirement := r } }
  fields.foldl (fun l field => l.conjoinField limit s!"{typeName}.{field}" canonicalName field r) l

def inheritFromType (limit : Nat) (roots : RootTypes) (l : Ledger) (typeName : String)
    (entry : TypeEntry) : Ledger :=
  match entry.composite? with
  | none => l
  | some composite =>
    match typeLevel limit entry.directives with
    | .nothing => l
    | .overLimit => { l with overLimit := l.overLimit.insert typeName }
    | .requirement r =>
      l.coverFields limit typeName (roots.canonicalName typeName) composite.fields.keys r

/-- Passes the field requirements of one interface on to one of its concrete types. -/
def inheritFields (limit : Nat) (fields : List (String × Requirement)) (l : Ledger)
    (concreteName : String) : Ledger :=
  -- A concrete type gets a record even where there is no field to pass on.
  let l := { l with records := l.records.update concreteName id }
  fields.foldl
    (fun l (field, r) => l.conjoinField limit s!"{concreteName}.{field}" concreteName field r) l

def inheritFromInterface (limit : Nat) (concrete : ConcreteTypes) (l : Ledger)
    (interfaceName : String) : Ledger :=
  match l.records.get? interfaceName with
  | none => l
  | some record =>
    (concrete.of interfaceName).toList.foldl (inheritFields limit record.fields.toList) l

/-- Passes the requirement of a leaf type on to a field of that type. -/
def inheritFromLeaf (limit : Nat) (l : Ledger) (heir : Heir) : Ledger :=
  if l.leafTypes.contains heir.namedType then
    match l.records.get? heir.namedType with
    | none => l
    | some record =>
      l.conjoinField limit s!"{heir.parent}.{heir.field}" heir.canonicalParent heir.field
        record.requirement
  else l

end Ledger

def coveringInterfaces (limit : Nat) (types : Registry) : List String :=
  types.toList.filterMap fun (typeName, entry) =>
    match entry.kind, typeLevel limit entry.directives with
    | .interface, .requirement _ => some typeName
    | _, _ => none

/-- The ledger after all inheritance: from types, then from interfaces, then from leaf types. -/
def Ledger.consolidate (limit : Nat) (roots : RootTypes) (types : Registry) (concrete : ConcreteTypes)
    (l : Ledger) : Ledger :=
  -- The order shows: a step passes on what the steps before it have added.
  let l := types.toList.foldl (fun l (name, entry) => l.inheritFromType limit roots name entry) l
  let l := (coveringInterfaces limit types).foldl (Ledger.inheritFromInterface limit concrete) l
  { l.heirs.foldl (Ledger.inheritFromLeaf limit) l with heirs := [] }

end Federation.Authorization
