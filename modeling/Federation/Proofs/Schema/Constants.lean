import Federation.Proofs.Schema.Legible

/-!
# Definitions with other constants

Every constant in a definition is replaced, and nothing else is. A definition stays legible if its constants do, and it
stays as it is if they do.
-/

namespace Federation.Schema

variable (f : Value → Value)

def Directive.mapConstants (d : Directive) : Directive :=
  { d with arguments := d.arguments.map fun a => (a.1, f a.2) }

def ArgumentDefinition.mapConstants (a : ArgumentDefinition) : ArgumentDefinition :=
  { a with default? := a.default?.map f }

def InputValueDefinition.mapConstants (v : InputValueDefinition) : InputValueDefinition :=
  { v with default? := v.default?.map f, directives := v.directives.map (·.mapConstants f) }

def FieldDefinition.mapConstants (d : FieldDefinition) : FieldDefinition :=
  { d with
    arguments := d.arguments.map (·.mapConstants f)
    directives := d.directives.map (·.mapConstants f) }

def EnumValueDefinition.mapConstants (v : EnumValueDefinition) : EnumValueDefinition :=
  { v with directives := v.directives.map (·.mapConstants f) }

def TypeBody.mapConstants : TypeBody → TypeBody
  | enum values => enum (values.map (·.mapConstants f))
  | inputObject fields => inputObject (fields.map (·.mapConstants f))
  | interface interfaces fields => interface interfaces (fields.map (·.mapConstants f))
  | object interfaces fields => object interfaces (fields.map (·.mapConstants f))
  | scalar => scalar
  | union members => union members

def TypeDefinition.mapConstants (t : TypeDefinition) : TypeDefinition :=
  { t with directives := t.directives.map (·.mapConstants f), body := t.body.mapConstants f }

def DirectiveDefinition.mapConstants (d : DirectiveDefinition) : DirectiveDefinition :=
  { d with arguments := d.arguments.map (·.mapConstants f) }

def SchemaDefinition.mapConstants (s : SchemaDefinition) : SchemaDefinition :=
  { s with directives := s.directives.map (·.mapConstants f) }

/-- The definition with each of its constants replaced. -/
def Definition.mapConstants : Definition → Definition
  | directive d => directive (d.mapConstants f)
  | schema s => schema (s.mapConstants f)
  | type t => type (t.mapConstants f)

@[simp] theorem InputValueDefinition.description_mapConstants (v : InputValueDefinition) :
    (v.mapConstants f).description = v.description := rfl

@[simp] theorem TypeBody.kind_mapConstants (b : TypeBody) : (b.mapConstants f).kind = b.kind := by
  cases b <;> rfl

variable {f}

/-! ## Legible definitions -/

section Legible

variable {p q : Value → Bool} (keeps : ∀ v, p v = true → q (f v) = true)

include keeps

theorem Directive.isLegible_mapConstants {d : Directive} (legible : d.isLegible p = true) :
    (d.mapConstants f).isLegible q = true := by
  simp only [isLegible, Value.isLegibleArgument, mapConstants, Bool.and_eq_true, List.all_eq_true,
    List.forall_mem_map] at legible ⊢
  exact ⟨legible.1, fun a h => ⟨(legible.2 a h).1, keeps _ (legible.2 a h).2⟩⟩

theorem Directive.all_isLegible_mapConstants {ds : List Directive} (legible : ∀ d ∈ ds, d.isLegible p = true) :
    ∀ d ∈ ds.map (·.mapConstants f), d.isLegible q = true :=
  List.forall_mem_map.mpr fun d h => d.isLegible_mapConstants keeps (legible d h)

theorem all_map_of_all {default? : Option Value} (legible : ∀ v ∈ default?, p v = true) :
    ∀ v ∈ default?.map f, q v = true := by
  intro c given
  obtain ⟨v, here, rfl⟩ := Option.map_eq_some_iff.mp given
  exact keeps v (legible v here)

theorem InputValueDefinition.isLegible_mapConstants {v : InputValueDefinition} (legible : v.isLegible p = true) :
    (v.mapConstants f).isLegible q = true := by
  simp only [isLegible, Bool.and_eq_true, Option.all_eq_true, List.all_eq_true] at legible ⊢
  obtain ⟨⟨named, default⟩, directives⟩ := legible
  exact ⟨⟨named, all_map_of_all keeps default⟩, Directive.all_isLegible_mapConstants keeps directives⟩

theorem FieldDefinition.isLegible_mapConstants {d : FieldDefinition} (legible : d.isLegible p = true) :
    (d.mapConstants f).isLegible q = true := by
  simp only [isLegible, Bool.and_eq_true, List.all_eq_true] at legible ⊢
  obtain ⟨⟨⟨named, arguments⟩, type⟩, directives⟩ := legible
  refine ⟨⟨⟨named, List.forall_mem_map.mpr fun a h => ?_⟩, type⟩, Directive.all_isLegible_mapConstants keeps directives⟩
  exact a.isLegible_mapConstants keeps (arguments a h)

theorem EnumValueDefinition.isLegible_mapConstants {v : EnumValueDefinition} (legible : v.isLegible p = true) :
    (v.mapConstants f).isLegible q = true := by
  simp only [isLegible, Bool.and_eq_true, List.all_eq_true] at legible ⊢
  exact ⟨legible.1, Directive.all_isLegible_mapConstants keeps legible.2⟩

theorem TypeBody.isLegible_mapConstants {b : TypeBody} (legible : b.isLegible p = true) :
    (b.mapConstants f).isLegible q = true := by
  cases b with
  | enum values =>
    simp only [mapConstants, isLegible, List.all_eq_true] at legible ⊢
    exact List.forall_mem_map.mpr fun v h => v.isLegible_mapConstants keeps (legible v h)
  | inputObject fields =>
    simp only [mapConstants, isLegible, List.all_eq_true] at legible ⊢
    exact List.forall_mem_map.mpr fun v h => v.isLegible_mapConstants keeps (legible v h)
  | interface interfaces fields | object interfaces fields =>
    simp only [mapConstants, isLegible, Bool.and_eq_true, List.all_eq_true] at legible ⊢
    exact ⟨legible.1, List.forall_mem_map.mpr fun d h => d.isLegible_mapConstants keeps (legible.2 d h)⟩
  | scalar => rfl
  | union members => exact legible

theorem Definition.isLegible_mapConstants {d : Definition} (legible : d.isLegible p = true) :
    (d.mapConstants f).isLegible q = true := by
  cases d with
  | directive d =>
    simp only [isLegible, DirectiveDefinition.isLegible, ArgumentDefinition.isLegible, mapConstants,
      DirectiveDefinition.mapConstants, ArgumentDefinition.mapConstants, Bool.and_eq_true, List.all_eq_true,
      Option.all_eq_true, List.forall_mem_map] at legible ⊢
    obtain ⟨⟨⟨named, arguments⟩, some_place⟩, ordered⟩ := legible
    exact ⟨⟨⟨named, fun a h => ⟨(arguments a h).1, all_map_of_all keeps (arguments a h).2⟩⟩, some_place⟩, ordered⟩
  | schema s =>
    simp only [isLegible, SchemaDefinition.isLegible, mapConstants, SchemaDefinition.mapConstants, Bool.and_eq_true,
      List.all_eq_true] at legible ⊢
    exact ⟨Directive.all_isLegible_mapConstants keeps legible.1, legible.2⟩
  | type t =>
    simp only [isLegible, TypeDefinition.isLegible, mapConstants, TypeDefinition.mapConstants, Bool.and_eq_true,
      List.all_eq_true] at legible ⊢
    obtain ⟨⟨named, directives⟩, body⟩ := legible
    exact ⟨⟨named, Directive.all_isLegible_mapConstants keeps directives⟩, TypeBody.isLegible_mapConstants keeps body⟩

end Legible

/-! ## Constants that stay -/

/-- A list stays as it is if its items do. -/
theorem map_eq_self {α : Type} {g : α → α} {xs : List α} (same : ∀ x ∈ xs, g x = x) : xs.map g = xs :=
  (List.map_congr_left same).trans (List.map_id xs)

theorem Directive.mapConstants_eq_self {d : Directive} (same : ∀ v ∈ d.constants, f v = v) : d.mapConstants f = d := by
  have arguments : d.arguments.map (fun a => (a.1, f a.2)) = d.arguments :=
    map_eq_self fun a given => by rw [same a.2 (List.mem_map_of_mem given)]
  rw [mapConstants, arguments]

theorem Directive.map_mapConstants_eq_self {ds : List Directive}
    (same : ∀ v ∈ ds.flatMap Directive.constants, f v = v) : ds.map (·.mapConstants f) = ds :=
  map_eq_self fun d h => d.mapConstants_eq_self fun v given => same v (List.mem_flatMap.mpr ⟨d, h, given⟩)

theorem map_default_eq_self {default? : Option Value} (same : ∀ v ∈ default?.toList, f v = v) :
    default?.map f = default? := by
  cases default? with
  | none => rfl
  | some v => exact congrArg some (same v (by simp))

theorem InputValueDefinition.mapConstants_eq_self {v : InputValueDefinition} (same : ∀ c ∈ v.constants, f c = c) :
    v.mapConstants f = v := by
  obtain ⟨default, directives⟩ := List.forall_mem_append.mp same
  rw [mapConstants, map_default_eq_self default, Directive.map_mapConstants_eq_self directives]

theorem FieldDefinition.mapConstants_eq_self {d : FieldDefinition} (same : ∀ c ∈ d.constants, f c = c) :
    d.mapConstants f = d := by
  obtain ⟨inside, directives⟩ := List.forall_mem_append.mp same
  have arguments : d.arguments.map (·.mapConstants f) = d.arguments := map_eq_self fun a h =>
    a.mapConstants_eq_self fun c given => inside c (List.mem_flatMap.mpr ⟨a, h, given⟩)
  rw [mapConstants, arguments, Directive.map_mapConstants_eq_self directives]

theorem TypeBody.mapConstants_eq_self {b : TypeBody} (same : ∀ c ∈ b.constants, f c = c) : b.mapConstants f = b := by
  cases b with
  | enum values =>
    refine congrArg enum (map_eq_self fun v h => ?_)
    have directives : v.directives.map (·.mapConstants f) = v.directives :=
      Directive.map_mapConstants_eq_self fun c given => same c (List.mem_flatMap.mpr ⟨v, h, given⟩)
    rw [EnumValueDefinition.mapConstants, directives]
  | inputObject fields =>
    exact congrArg inputObject (map_eq_self fun v h =>
      v.mapConstants_eq_self fun c given => same c (List.mem_flatMap.mpr ⟨v, h, given⟩))
  | interface interfaces fields | object interfaces fields =>
    have inside : fields.map (·.mapConstants f) = fields := map_eq_self fun d h =>
      d.mapConstants_eq_self fun c given => same c (List.mem_flatMap.mpr ⟨d, h, given⟩)
    rw [mapConstants, inside]
  | scalar => rfl
  | union members => rfl

theorem Definition.mapConstants_eq_self {d : Definition} (same : ∀ c ∈ d.constants, f c = c) :
    d.mapConstants f = d := by
  cases d with
  | directive d =>
    have arguments : d.arguments.map (·.mapConstants f) = d.arguments := map_eq_self fun a h => by
      rw [ArgumentDefinition.mapConstants,
        map_default_eq_self fun c given => same c (List.mem_flatMap.mpr ⟨a, h, given⟩)]
    rw [mapConstants, DirectiveDefinition.mapConstants, arguments]
  | schema s => rw [mapConstants, SchemaDefinition.mapConstants, Directive.map_mapConstants_eq_self same]
  | type t =>
    obtain ⟨directives, body⟩ := List.forall_mem_append.mp same
    rw [mapConstants, TypeDefinition.mapConstants, Directive.map_mapConstants_eq_self directives,
      TypeBody.mapConstants_eq_self body]

end Federation.Schema
