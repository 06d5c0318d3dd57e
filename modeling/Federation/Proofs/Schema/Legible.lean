import Federation.Proofs.Grammar.Spelling
import Federation.Schema.Definition

/-!
Legible syntax: every name is one of the grammar, and every constant is of a kind that a predicate
selects. What is legible with constants that can be told from their text can be told from its own text.
-/

namespace Federation.Schema

open Grammar (Token)

/-! ### Constants -/

namespace Value

/-- What holds of a list whenever it holds of its items, of an object whenever it holds of the values
of its fields, and of everything else, holds of all values. -/
@[elab_as_elim] theorem nested {P : Value → Prop} (null : P .null) (int : ∀ n, P (.int n))
    (float : ∀ x, P (.float x)) (string : ∀ s, P (.string s)) (boolean : ∀ b, P (.boolean b))
    (enum : ∀ name, P (.enum name)) (list : ∀ items, (∀ v ∈ items, P v) → P (.list items))
    (object : ∀ fields, (∀ f ∈ fields, P f.2) → P (.object fields)) (v : Value) : P v := by
  apply Value.rec (motive_1 := P) (motive_2 := fun items => ∀ v ∈ items, P v)
    (motive_3 := fun fields => ∀ f ∈ fields, P f.2) (motive_4 := fun f => P f.2)
  all_goals first
    | assumption
    | simp +contextual

/-- The names that stand for constants, so that no enum value has them. -/
def reserved : List String := ["null", "true", "false"]

mutual

/-- Whether fields and enum values have names of the grammar, enum values none that is reserved. -/
def isWellNamed : Value → Bool
  | null | int _ | float _ | string _ | boolean _ => true
  | enum name => Token.isName name && name ∉ reserved
  | list items => itemsWellNamed items
  | object fields => fieldsWellNamed fields

def itemsWellNamed : List Value → Bool
  | [] => true
  | item :: rest => item.isWellNamed && itemsWellNamed rest

def fieldsWellNamed : List (String × Value) → Bool
  | [] => true
  | (name, value) :: rest => Token.isName name && value.isWellNamed && fieldsWellNamed rest

end

mutual

/-- Whether a property holds of all floating-point numbers in the value. -/
def floatsAll (p : Decimal.Binary64 → Bool) : Value → Bool
  | null | int _ | string _ | boolean _ | enum _ => true
  | float x => p x
  | list items => itemsFloatsAll p items
  | object fields => fieldsFloatsAll p fields

def itemsFloatsAll (p : Decimal.Binary64 → Bool) : List Value → Bool
  | [] => true
  | item :: rest => item.floatsAll p && itemsFloatsAll p rest

def fieldsFloatsAll (p : Decimal.Binary64 → Bool) : List (String × Value) → Bool
  | [] => true
  | (_, value) :: rest => value.floatsAll p && fieldsFloatsAll p rest

end

/-- Whether there is no floating-point number in the value. -/
def isFloatFree (v : Value) : Bool := v.floatsAll fun _ => false

/-- Whether minus infinity is nowhere in the value. It is the one number whose text is no constant. -/
def isWritable (v : Value) : Bool := v.floatsAll (· ≠ .infinite true)

/-- Whether the value can be told from its text. -/
def isReadable (v : Value) : Bool := v.isWellNamed && v.isFloatFree

/-- Whether the text of the value is one of the grammar. -/
def isSpelled (v : Value) : Bool := v.isWellNamed && v.isWritable

theorem itemsWellNamed_iff {items : List Value} :
    itemsWellNamed items = true ↔ ∀ v ∈ items, v.isWellNamed = true := by
  induction items with
  | nil => simp [itemsWellNamed]
  | cons v items ih => simp [itemsWellNamed, ih]

theorem fieldsWellNamed_iff {fields : List (String × Value)} :
    fieldsWellNamed fields = true ↔
      ∀ f ∈ fields, Token.isName f.1 = true ∧ f.2.isWellNamed = true := by
  induction fields with
  | nil => simp [fieldsWellNamed]
  | cons f fields ih => simp [fieldsWellNamed, ih]

theorem isWellNamed_enum {name : String} :
    (enum name).isWellNamed = true ↔ Token.isName name = true ∧ name ∉ reserved := by
  simp [isWellNamed]

theorem isWellNamed_list {items : List Value} :
    (list items).isWellNamed = true ↔ ∀ v ∈ items, v.isWellNamed = true := by
  rw [isWellNamed, itemsWellNamed_iff]

theorem isWellNamed_object {fields : List (String × Value)} :
    (object fields).isWellNamed = true ↔ ∀ f ∈ fields, Token.isName f.1 = true ∧ f.2.isWellNamed = true := by
  rw [isWellNamed, fieldsWellNamed_iff]

variable {p q : Decimal.Binary64 → Bool}

theorem floatsAll_list {items : List Value} :
    (list items).floatsAll p = true ↔ ∀ v ∈ items, v.floatsAll p = true := by
  rw [floatsAll]
  induction items with
  | nil => simp [itemsFloatsAll]
  | cons v items ih => simp [itemsFloatsAll, ih]

theorem floatsAll_object {fields : List (String × Value)} :
    (object fields).floatsAll p = true ↔ ∀ f ∈ fields, f.2.floatsAll p = true := by
  rw [floatsAll]
  induction fields with
  | nil => simp [fieldsFloatsAll]
  | cons f fields ih => simp [fieldsFloatsAll, ih]

theorem floatsAll_mono (imp : ∀ x, p x = true → q x = true) {v : Value} (all : v.floatsAll p = true) :
    v.floatsAll q = true := by
  induction v using nested with
  | null | int | string | boolean | enum => rfl
  | float x => exact imp x all
  | list items ih => exact floatsAll_list.mpr fun v h => ih v h (floatsAll_list.mp all v h)
  | object fields ih => exact floatsAll_object.mpr fun f h => ih f h (floatsAll_object.mp all f h)

theorem isWritable_of_isFloatFree {v : Value} (free : v.isFloatFree = true) : v.isWritable = true :=
  floatsAll_mono (fun _ none => absurd none Bool.false_ne_true) free

theorem isSpelled_of_isReadable {v : Value} (readable : v.isReadable = true) : v.isSpelled = true := by
  obtain ⟨named, free⟩ := Bool.and_eq_true_iff.mp readable
  exact Bool.and_eq_true_iff.mpr ⟨named, isWritable_of_isFloatFree free⟩

end Value

/-! ### Syntax with constants that satisfy a predicate -/

section Legible

variable (p q : Value → Bool)

def TypeRef.isLegible : TypeRef → Bool
  | .named name _ => Token.isName name
  | .list item _ => item.isLegible

/-- An argument of an application or a field of an object. -/
def Value.isLegibleArgument (argument : String × Value) : Bool :=
  Token.isName argument.1 && p argument.2

def Directive.isLegible (d : Directive) : Bool :=
  Token.isName d.name && d.arguments.all (Value.isLegibleArgument p)

def ArgumentDefinition.isLegible (a : ArgumentDefinition) : Bool :=
  Token.isName a.name && a.type.isLegible && a.default?.all p

def InputValueDefinition.isLegible (v : InputValueDefinition) : Bool :=
  Token.isName v.name && v.type.isLegible && v.default?.all p && v.directives.all (·.isLegible p)

def FieldDefinition.isLegible (f : FieldDefinition) : Bool :=
  Token.isName f.name && f.arguments.all (·.isLegible p) && f.type.isLegible &&
    f.directives.all (·.isLegible p)

def EnumValueDefinition.isLegible (v : EnumValueDefinition) : Bool :=
  Token.isName v.name && v.name ∉ Value.reserved && v.directives.all (·.isLegible p)

def TypeBody.isLegible : TypeBody → Bool
  | .enum values => values.all (·.isLegible p)
  | .inputObject fields => fields.all (·.isLegible p)
  | .interface implements fields | .object implements fields =>
    implements.all Token.isName && fields.all (·.isLegible p)
  | .scalar => true
  | .union members => members.all Token.isName

def TypeDefinition.isLegible (t : TypeDefinition) : Bool :=
  Token.isName t.name && t.directives.all (·.isLegible p) && t.body.isLegible p

/-- The places of a directive are listed as its definition keeps them. -/
def DirectiveDefinition.isLegible (d : DirectiveDefinition) : Bool :=
  Token.isName d.name && d.arguments.all (·.isLegible p) && !d.locations.isEmpty &&
    Location.ordered d.locations = d.locations

def SchemaDefinition.isLegible (s : SchemaDefinition) : Bool :=
  s.directives.all (·.isLegible p) && s.operationTypes.all fun root => Token.isName root.2

def Definition.isLegible : Definition → Bool
  | .directive d => d.isLegible p
  | .schema s => s.isLegible p
  | .type t => t.isLegible p

def Statement.isLegible : Statement → Bool
  | .define d => d.isLegible p
  | .extendSchema s => s.isLegible p
  | .extendType t => t.isLegible p

end Legible

/-! ### The constants and the descriptions in a definition -/

namespace Directive

def constants (d : Directive) : List Value := d.arguments.map Prod.snd

end Directive

namespace InputValueDefinition

def constants (v : InputValueDefinition) : List Value :=
  v.default?.toList ++ v.directives.flatMap Directive.constants

end InputValueDefinition

namespace FieldDefinition

def constants (f : FieldDefinition) : List Value :=
  f.arguments.flatMap InputValueDefinition.constants ++ f.directives.flatMap Directive.constants

def descriptions (f : FieldDefinition) : List String :=
  f.description.toList ++ f.arguments.flatMap fun a => a.description.toList

end FieldDefinition

namespace TypeBody

def constants : TypeBody → List Value
  | enum values => values.flatMap fun v => v.directives.flatMap Directive.constants
  | inputObject fields => fields.flatMap InputValueDefinition.constants
  | interface _ fields | object _ fields => fields.flatMap FieldDefinition.constants
  | scalar | union _ => []

def descriptions : TypeBody → List String
  | enum values => values.flatMap fun v => v.description.toList
  | inputObject fields => fields.flatMap fun v => v.description.toList
  | interface _ fields | object _ fields => fields.flatMap FieldDefinition.descriptions
  | scalar | union _ => []

end TypeBody

namespace Definition

/-- Defaults and the arguments of applications, everywhere in the definition. -/
def constants : Definition → List Value
  | directive d => d.arguments.flatMap fun a => a.default?.toList
  | schema s => s.directives.flatMap Directive.constants
  | type t => t.directives.flatMap Directive.constants ++ t.body.constants

def descriptions : Definition → List String
  | directive d => d.description.toList
  | schema _ => []
  | type t => t.description.toList ++ t.body.descriptions

end Definition

/-! ### Joining predicates on constants -/

section Join

variable {p q : Value → Bool}

theorem Directive.isLegible_and {d : Directive} (legible : d.isLegible p = true)
    (all : ∀ v ∈ d.constants, q v = true) : d.isLegible (fun v => p v && q v) = true := by
  simp only [isLegible, Value.isLegibleArgument, constants, List.all_eq_true, Bool.and_eq_true,
    List.forall_mem_map] at legible all ⊢
  exact ⟨legible.1, fun a h => ⟨(legible.2 a h).1, (legible.2 a h).2, all a h⟩⟩

theorem Directive.all_isLegible_and {ds : List Directive} (legible : ∀ d ∈ ds, d.isLegible p = true)
    (all : ∀ v ∈ ds.flatMap constants, q v = true) :
    ∀ d ∈ ds, d.isLegible (fun v => p v && q v) = true := by
  intro d h
  exact isLegible_and (legible d h) fun v inside => all v (List.mem_flatMap.2 ⟨d, h, inside⟩)

theorem InputValueDefinition.isLegible_and {v : InputValueDefinition} (legible : v.isLegible p = true)
    (all : ∀ c ∈ v.constants, q c = true) : v.isLegible (fun c => p c && q c) = true := by
  simp only [isLegible, constants, List.forall_mem_append, Bool.and_eq_true, List.all_eq_true,
    Option.all_eq_true, Option.mem_toList] at legible all ⊢
  obtain ⟨⟨named, default⟩, directives⟩ := legible
  exact ⟨⟨named, fun c h => ⟨default c h, all.1 c h⟩⟩, Directive.all_isLegible_and directives all.2⟩

theorem InputValueDefinition.all_isLegible_and {vs : List InputValueDefinition}
    (legible : ∀ v ∈ vs, v.isLegible p = true) (all : ∀ c ∈ vs.flatMap constants, q c = true) :
    ∀ v ∈ vs, v.isLegible (fun c => p c && q c) = true := by
  intro v h
  exact isLegible_and (legible v h) fun c inside => all c (List.mem_flatMap.2 ⟨v, h, inside⟩)

theorem FieldDefinition.isLegible_and {f : FieldDefinition} (legible : f.isLegible p = true)
    (all : ∀ c ∈ f.constants, q c = true) : f.isLegible (fun c => p c && q c) = true := by
  simp only [isLegible, constants, List.forall_mem_append, Bool.and_eq_true, List.all_eq_true]
    at legible all ⊢
  obtain ⟨⟨⟨named, arguments⟩, type⟩, directives⟩ := legible
  exact ⟨⟨⟨named, InputValueDefinition.all_isLegible_and arguments all.1⟩, type⟩,
    Directive.all_isLegible_and directives all.2⟩

theorem EnumValueDefinition.isLegible_and {v : EnumValueDefinition} (legible : v.isLegible p = true)
    (all : ∀ c ∈ v.directives.flatMap Directive.constants, q c = true) :
    v.isLegible (fun c => p c && q c) = true := by
  simp only [isLegible, Bool.and_eq_true, List.all_eq_true] at legible ⊢
  exact ⟨legible.1, Directive.all_isLegible_and legible.2 all⟩

theorem TypeBody.isLegible_and {b : TypeBody} (legible : b.isLegible p = true)
    (all : ∀ c ∈ b.constants, q c = true) : b.isLegible (fun c => p c && q c) = true := by
  cases b with
  | enum values =>
    simp only [isLegible, constants, List.all_eq_true, List.mem_flatMap] at legible all ⊢
    exact fun v h => EnumValueDefinition.isLegible_and (legible v h) fun c inside =>
      all c ⟨v, h, List.mem_flatMap.1 inside⟩
  | inputObject fields =>
    simp only [isLegible, List.all_eq_true] at legible ⊢
    exact InputValueDefinition.all_isLegible_and legible all
  | interface implements fields | object implements fields =>
    simp only [isLegible, constants, Bool.and_eq_true, List.all_eq_true, List.mem_flatMap] at legible all ⊢
    exact ⟨legible.1, fun f h => FieldDefinition.isLegible_and (legible.2 f h) fun c inside =>
      all c ⟨f, h, inside⟩⟩
  | scalar => rfl
  | union members => exact legible

theorem Definition.isLegible_and {d : Definition} (legible : d.isLegible p = true)
    (all : ∀ c ∈ d.constants, q c = true) : d.isLegible (fun c => p c && q c) = true := by
  cases d with
  | directive d =>
    simp only [isLegible, constants, DirectiveDefinition.isLegible, ArgumentDefinition.isLegible,
      Bool.and_eq_true, List.all_eq_true, Option.all_eq_true, List.mem_flatMap, Option.mem_toList]
      at legible all ⊢
    obtain ⟨⟨⟨named, arguments⟩, some_place⟩, ordered⟩ := legible
    refine ⟨⟨⟨named, fun a h => ⟨(arguments a h).1, fun c given => ?_⟩⟩, some_place⟩, ordered⟩
    exact ⟨(arguments a h).2 c given, all c ⟨a, h, given⟩⟩
  | schema s =>
    simp only [isLegible, SchemaDefinition.isLegible, Bool.and_eq_true, List.all_eq_true] at legible ⊢
    exact ⟨Directive.all_isLegible_and legible.1 all, legible.2⟩
  | type t =>
    simp only [isLegible, TypeDefinition.isLegible, constants, Bool.and_eq_true, List.all_eq_true,
      List.forall_mem_append] at legible all ⊢
    obtain ⟨⟨named, directives⟩, body⟩ := legible
    exact ⟨⟨named, Directive.all_isLegible_and directives all.1⟩, TypeBody.isLegible_and body all.2⟩

end Join

end Federation.Schema
