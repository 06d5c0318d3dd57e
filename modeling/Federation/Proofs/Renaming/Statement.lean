import Federation.Schema.Definition

/-!
# Renaming the types of a text

Every name of a type in a statement is replaced: where the type is defined or extended, where it is listed as an
interface or a member, where a field, an argument or a value has it, and where an operation starts from it. Names of
fields and directives and the texts of values stay.
-/

namespace Federation.Schema

variable {f g : String → String}

namespace TypeRef

def rename (f : String → String) : TypeRef → TypeRef
  | named name nonNull => named (f name) nonNull
  | list item nonNull => list (item.rename f) nonNull

@[simp]
theorem namedType_rename (t : TypeRef) : (t.rename f).namedType = f t.namedType := by
  induction t with
  | named => rfl
  | list _ _ ih => exact ih

@[simp]
theorem isNonNull_rename (t : TypeRef) : (t.rename f).isNonNull = t.isNonNull := by cases t <;> rfl

@[simp]
theorem rename_id (t : TypeRef) : t.rename id = t := by
  induction t with
  | named => rfl
  | list item nonNull ih => exact congrArg (list · nonNull) ih

theorem rename_congr {t : TypeRef} (same : f t.namedType = g t.namedType) : t.rename f = t.rename g := by
  induction t with
  | named name nonNull => exact congrArg (named · nonNull) same
  | list item nonNull ih => exact congrArg (list · nonNull) (ih same)

/-- A renaming that confuses no names confuses no types. -/
theorem rename_injective (injective : Function.Injective f) : Function.Injective (rename f) := by
  intro t u same
  induction t generalizing u with
  | named =>
    cases u with
    | named => simp_all [rename, injective.eq_iff]
    | list => exact nomatch same
  | list item nonNull ih =>
    cases u with
    | named => exact nomatch same
    | list =>
      obtain ⟨items, nonNulls⟩ := TypeRef.list.inj same
      rw [ih items, nonNulls]

end TypeRef

def InputValueDefinition.rename (f : String → String) (v : InputValueDefinition) : InputValueDefinition :=
  { v with type := v.type.rename f }

namespace FieldDefinition

def rename (f : String → String) (d : FieldDefinition) : FieldDefinition :=
  { d with arguments := d.arguments.map (·.rename f), type := d.type.rename f }

def typeNames (d : FieldDefinition) : List String :=
  d.type.namedType :: d.arguments.map fun v => v.type.namedType

end FieldDefinition

namespace TypeBody

def rename (f : String → String) : TypeBody → TypeBody
  | enum values => enum values
  | inputObject fields => inputObject (fields.map (·.rename f))
  | interface implements fields => interface (implements.map f) (fields.map (·.rename f))
  | object implements fields => object (implements.map f) (fields.map (·.rename f))
  | scalar => scalar
  | union members => union (members.map f)

def typeNames : TypeBody → List String
  | enum _ | scalar => []
  | inputObject fields => fields.map fun v => v.type.namedType
  | interface implements fields | object implements fields => implements ++ fields.flatMap FieldDefinition.typeNames
  | union members => members

@[simp]
theorem kind_rename (t : TypeBody) : (t.rename f).kind = t.kind := by cases t <;> rfl

end TypeBody

namespace TypeDefinition

def rename (f : String → String) (t : TypeDefinition) : TypeDefinition :=
  { t with name := f t.name, body := t.body.rename f }

def typeNames (t : TypeDefinition) : List String := t.name :: t.body.typeNames

@[simp]
theorem name_rename (t : TypeDefinition) : (t.rename f).name = f t.name := rfl

@[simp]
theorem kind_rename (t : TypeDefinition) : (t.rename f).kind = t.kind := t.body.kind_rename

end TypeDefinition

namespace SchemaDefinition

def rename (f : String → String) (s : SchemaDefinition) : SchemaDefinition :=
  { s with operationTypes := s.operationTypes.map fun e => (e.1, f e.2) }

def typeNames (s : SchemaDefinition) : List String := s.operationTypes.map Prod.snd

end SchemaDefinition

def ArgumentDefinition.rename (f : String → String) (a : ArgumentDefinition) : ArgumentDefinition :=
  { a with type := a.type.rename f }

namespace DirectiveDefinition

def rename (f : String → String) (d : DirectiveDefinition) : DirectiveDefinition :=
  { d with arguments := d.arguments.map (·.rename f) }

@[simp]
theorem rename_id (d : DirectiveDefinition) : d.rename id = d := by
  simp [rename, ArgumentDefinition.rename]

def typeNames (d : DirectiveDefinition) : List String := d.arguments.map fun a => a.type.namedType

end DirectiveDefinition

namespace Statement

def rename (f : String → String) : Statement → Statement
  | define (.directive d) => define (.directive (d.rename f))
  | define (.schema s) => define (.schema (s.rename f))
  | define (.type t) => define (.type (t.rename f))
  | extendSchema s => extendSchema (s.rename f)
  | extendType t => extendType (t.rename f)

/-- The names of types that a statement mentions. -/
def typeNames : Statement → List String
  | define (.directive d) => d.typeNames
  | define (.schema s) | extendSchema s => s.typeNames
  | define (.type t) | extendType t => t.typeNames

end Statement

/-! ## Renamings that agree on what is mentioned -/

theorem InputValueDefinition.rename_congr {v : InputValueDefinition}
    (same : f v.type.namedType = g v.type.namedType) :
    v.rename f = v.rename g := by
  simp only [rename, TypeRef.rename_congr same]

theorem FieldDefinition.rename_congr {d : FieldDefinition} (same : ∀ name ∈ d.typeNames, f name = g name) :
    d.rename f = d.rename g := by
  obtain ⟨type, arguments⟩ := List.forall_mem_cons.mp same
  have renamed : d.arguments.map (·.rename f) = d.arguments.map (·.rename g) :=
    List.map_congr_left fun v member => InputValueDefinition.rename_congr (arguments _ (List.mem_map_of_mem member))
  simp only [rename, TypeRef.rename_congr type, renamed]

theorem TypeBody.rename_congr {t : TypeBody} (same : ∀ name ∈ t.typeNames, f name = g name) :
    t.rename f = t.rename g := by
  have composite {implements : List String} {fields : List FieldDefinition}
      (same : ∀ name ∈ implements ++ fields.flatMap FieldDefinition.typeNames, f name = g name) :
      implements.map f = implements.map g ∧ fields.map (·.rename f) = fields.map (·.rename g) := by
    refine ⟨List.map_congr_left fun name member => same name (List.mem_append_left _ member),
      List.map_congr_left fun d member => FieldDefinition.rename_congr fun name mentioned => ?_⟩
    exact same name (List.mem_append_right _ (List.mem_flatMap.mpr ⟨d, member, mentioned⟩))
  cases t with
  | enum | scalar => rfl
  | inputObject fields =>
    have renamed : fields.map (·.rename f) = fields.map (·.rename g) :=
      List.map_congr_left fun v member => InputValueDefinition.rename_congr (same _ (List.mem_map_of_mem member))
    simp only [rename, renamed]
  | interface implements fields => simp only [rename, composite same]
  | object implements fields => simp only [rename, composite same]
  | union members => exact congrArg union (List.map_congr_left same)

theorem TypeDefinition.rename_congr {t : TypeDefinition} (same : ∀ name ∈ t.typeNames, f name = g name) :
    t.rename f = t.rename g := by
  obtain ⟨name, body⟩ := List.forall_mem_cons.mp same
  simp only [rename, name, TypeBody.rename_congr body]

theorem SchemaDefinition.rename_congr {s : SchemaDefinition} (same : ∀ name ∈ s.typeNames, f name = g name) :
    s.rename f = s.rename g := by
  have renamed : (s.operationTypes.map fun e => (e.1, f e.2)) = s.operationTypes.map fun e => (e.1, g e.2) :=
    List.map_congr_left fun e member => by rw [same e.2 (List.mem_map_of_mem member)]
  simp only [rename, renamed]

theorem DirectiveDefinition.rename_congr {d : DirectiveDefinition} (same : ∀ name ∈ d.typeNames, f name = g name) :
    d.rename f = d.rename g := by
  have renamed : d.arguments.map (·.rename f) = d.arguments.map (·.rename g) :=
    List.map_congr_left fun a member => by
      simp only [ArgumentDefinition.rename, TypeRef.rename_congr (same _ (List.mem_map_of_mem member))]
  simp only [rename, renamed]

theorem Statement.rename_congr {x : Statement} (same : ∀ name ∈ x.typeNames, f name = g name) :
    x.rename f = x.rename g := by
  rcases x with (d | s | t) | s | t
  · exact congrArg (fun d => define (.directive d)) (DirectiveDefinition.rename_congr same)
  · exact congrArg (fun s => define (.schema s)) (SchemaDefinition.rename_congr same)
  · exact congrArg (fun t => define (.type t)) (TypeDefinition.rename_congr same)
  · exact congrArg extendSchema (SchemaDefinition.rename_congr same)
  · exact congrArg extendType (TypeDefinition.rename_congr same)

end Federation.Schema
