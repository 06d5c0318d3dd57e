import Federation.Schema.Directive
import Federation.Schema.Operation

/-! Definitions of types and schemas, and the documents made of them. -/

namespace Federation.Schema

inductive TypeKind
  | enum
  | inputObject
  | interface
  | object
  | scalar
  | union
  deriving DecidableEq

namespace TypeKind

def text : TypeKind → String
  | enum => "enum"
  | inputObject => "input object"
  | interface => "interface"
  | object => "object"
  | scalar => "scalar"
  | union => "union"

/-- Kinds whose values may be given as arguments. -/
def isInput : TypeKind → Bool
  | enum | inputObject | scalar => true
  | interface | object | union => false

/-- Kinds whose values have no fields and no members. -/
def isLeaf : TypeKind → Bool
  | enum | scalar => true
  | inputObject | interface | object | union => false

/-- The place of a directive on a type of this kind. -/
def location : TypeKind → Location
  | enum => .enum
  | inputObject => .inputObject
  | interface => .interface
  | object => .object
  | scalar => .scalar
  | union => .union

end TypeKind

/-- An argument of a field or a field of an input object. -/
structure InputValueDefinition where
  name : String
  description : Option String
  type : TypeRef
  default? : Option Value
  directives : List Directive

structure FieldDefinition where
  name : String
  description : Option String
  arguments : List InputValueDefinition
  type : TypeRef
  directives : List Directive

structure EnumValueDefinition where
  name : String
  description : Option String
  directives : List Directive

/-- What a type of each kind consists of. -/
inductive TypeBody
  | enum (values : List EnumValueDefinition)
  | inputObject (fields : List InputValueDefinition)
  | interface (implements : List String) (fields : List FieldDefinition)
  | object (implements : List String) (fields : List FieldDefinition)
  | scalar
  | union (members : List String)

def TypeBody.kind : TypeBody → TypeKind
  | enum _ => .enum
  | inputObject _ => .inputObject
  | interface _ _ => .interface
  | object _ _ => .object
  | scalar => .scalar
  | union _ => .union

structure TypeDefinition where
  name : String
  description : Option String
  directives : List Directive
  body : TypeBody

namespace TypeDefinition

def kind (t : TypeDefinition) : TypeKind := t.body.kind

def fields (t : TypeDefinition) : List FieldDefinition :=
  match t.body with
  | .interface _ fields | .object _ fields => fields
  | _ => []

def field? (t : TypeDefinition) (name : String) : Option FieldDefinition :=
  t.fields.find? (·.name = name)

end TypeDefinition

/-- The root types of operations, with the directives on the schema. -/
structure SchemaDefinition where
  directives : List Directive
  operationTypes : List (Operation × String)

inductive Definition
  | directive (definition : DirectiveDefinition)
  | schema (definition : SchemaDefinition)
  | type (definition : TypeDefinition)

/-- A self-contained type system. -/
abbrev Document := List Definition

namespace Document

def type? (document : Document) (name : String) : Option TypeDefinition :=
  document.findSome? fun
    | .type t => if t.name = name then some t else none
    | _ => none

def directive? (document : Document) (name : String) : Option DirectiveDefinition :=
  document.findSome? fun
    | .directive d => if d.name = name then some d else none
    | _ => none

end Document

/-- A statement of a subgraph: a definition, or an extension of a schema or of a type that may be
defined elsewhere. -/
inductive Statement
  | define (definition : Definition)
  | extendSchema (definition : SchemaDefinition)
  | extendType (definition : TypeDefinition)

end Federation.Schema
