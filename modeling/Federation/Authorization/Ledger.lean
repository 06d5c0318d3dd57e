import Federation.Authorization.Requirement
import Federation.Registry.Basic

/-!
The ledger of authorization: the requirements of types and of their fields, by canonical type name, and
what is still to be passed on to fields.
-/

namespace Federation.Authorization

open Schema

structure Record where
  /-- Whether the type has a requirement of its own that its fields take over. -/
  coversFields : Bool
  requirement : Requirement
  fields : Table String Requirement

namespace Record

def empty : Record := ⟨false, .none, .empty⟩

def field (r : Record) (name : String) : Requirement := r.fields.getD name .none

/-- Changes the requirement of a field. A field without one starts with the requirement that asks
nothing. -/
def updateField (r : Record) (name : String) (f : Requirement → Requirement) : Record :=
  { r with fields := r.fields.upsert name fun old => f (old.getD .none) }

@[simp]
theorem field_empty (name : String) : empty.field name = .none := rfl

theorem field_updateField (r : Record) (name other : String) (f : Requirement → Requirement) :
    (r.updateField name f).field other = if other = name then f (r.field name) else r.field other :=
  Table.getD_upsert r.fields name other _ _

@[simp]
theorem requirement_updateField (r : Record) (name : String) (f : Requirement → Requirement) :
    (r.updateField name f).requirement = r.requirement := rfl

@[simp]
theorem mem_fields_updateField {r : Record} {name other : String} {f : Requirement → Requirement} :
    other ∈ (r.updateField name f).fields.keys ↔ other ∈ r.fields.keys ∨ other = name :=
  Table.mem_keys_upsert

end Record

/-- The requirements of types, by canonical name. -/
abbrev Records := Table String Record

namespace Records

def of (records : Records) (typeName : String) : Record := Table.getD records typeName .empty

def update (records : Records) (typeName : String) (f : Record → Record) : Records :=
  Table.upsert records typeName fun old => f (old.getD .empty)

@[simp]
theorem of_empty (typeName : String) : of .empty typeName = .empty := rfl

theorem of_update (records : Records) (typeName other : String) (f : Record → Record) :
    (records.update typeName f).of other =
      if other = typeName then f (records.of typeName) else records.of other :=
  Table.getD_upsert records typeName other _ _

end Records

/-- A field that takes over what its leaf type requires. -/
structure Heir where
  canonicalParent : String
  parent : String
  field : String
  namedType : String

structure Ledger where
  records : Records
  /-- Enums and scalars on which a requirement is declared. -/
  leafTypes : NameSet
  heirs : List Heir
  /-- Hosts that would have too many alternatives. -/
  overLimit : NameSet

/-- Where authorization directives may stand apart from objects and interfaces. -/
inductive Host
  | field (parent canonicalParent name : String)
  | leaf (typeName : String)

def Host.path : Host → String
  | field parent _ name => s!"{parent}.{name}"
  | leaf typeName => typeName

namespace Ledger

def empty : Ledger := ⟨.empty, .empty, [], .empty⟩

/-- Records what the applications on one host declare. -/
def declare (limit : Nat) (host : Host) (applied : List Directive) (l : Ledger) : Ledger :=
  let authenticated := applied.countP (·.name = Vocabulary.authenticated)
  let scopings := applied.filter (·.name = Vocabulary.requiresScopes)
  match Declared.of limit authenticated scopings with
  | .nothing => l
  | .overLimit => { l with overLimit := l.overLimit.insert host.path }
  | .requirement r =>
    match host with
    | .field _ canonicalParent name =>
      { l with
        records := l.records.update canonicalParent fun record =>
          record.updateField name (·.accumulate r) }
    | .leaf typeName =>
      { l with
        leafTypes := l.leafTypes.insert typeName
        records := l.records.update typeName fun record =>
          { record with requirement := record.requirement.accumulate r } }

/-- Adds a requirement to that of a field. Where there are too many alternatives the path of the field
is noted. -/
def conjoinField (limit : Nat) (path canonicalParent field : String) (r : Requirement) (l : Ledger) :
    Ledger where
  records := l.records.update canonicalParent fun record =>
    record.updateField field fun old => old.conjoin limit r
  leafTypes := l.leafTypes
  heirs := l.heirs
  -- Whether there is room is asked of the requirement before it changes.
  overLimit :=
    if ((l.records.of canonicalParent).field field).fits limit r then l.overLimit
    else l.overLimit.insert path

end Ledger

end Federation.Authorization
