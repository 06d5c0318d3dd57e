import Federation.Grammar.Constant
import Federation.Schema.Printer
import Federation.Proofs.Grammar.Number
import Federation.Proofs.Grammar.Reading
import Federation.Proofs.Schema.Constants
import Mathlib.Data.Set.Function

/-!
Constants, references to types and applications of directives: the tokens of their written form, and
that these tokens are read as what was written.
-/

namespace Federation.Schema

open Grammar (Token)

namespace Value

mutual

/-- The tokens that a value is written with. -/
def tokens : Value → List Token
  | null => [.name "null"]
  | int n => [.int n]
  | float x => [.float x]
  | string s => [.string s]
  | boolean b => [.name (if b then "true" else "false")]
  | enum name => [.name name]
  | list items => .mark '[' :: (itemsTokens items ++ [.mark ']'])
  | object fields => .mark '\x7b' :: (fieldsTokens fields ++ [.mark '\x7d'])

def itemsTokens : List Value → List Token
  | [] => []
  | item :: rest => item.tokens ++ itemsTokens rest

def fieldsTokens : List (String × Value) → List Token
  | [] => []
  | (name, value) :: rest => .name name :: .mark ':' :: value.tokens ++ fieldsTokens rest

end

/-- The tokens of an argument, which are those of a field of an object. -/
def argumentTokens (argument : String × Value) : List Token :=
  .name argument.1 :: .mark ':' :: argument.2.tokens

def argumentText (argument : String × Value) : String := argument.1 ++ ": " ++ argument.2.text

theorem itemsTokens_eq (items : List Value) : itemsTokens items = items.flatMap tokens := by
  induction items with
  | nil => rfl
  | cons v items ih => rw [itemsTokens, ih, List.flatMap_cons]

theorem fieldsTokens_eq (fields : List (String × Value)) :
    fieldsTokens fields = fields.flatMap argumentTokens := by
  induction fields with
  | nil => rfl
  | cons f fields ih => rw [fieldsTokens, ih, List.flatMap_cons, argumentTokens]

theorem itemsText_eq (items : List Value) : itemsText items = ", ".intercalate (items.map text) := by
  induction items with
  | nil => rfl
  | cons v items ih =>
    cases items with
    | nil => simp [itemsText]
    | cons w items => rw [itemsText, ih]; all_goals simp

theorem fieldsText_eq (fields : List (String × Value)) :
    fieldsText fields = ", ".intercalate (fields.map argumentText) := by
  induction fields with
  | nil => rfl
  | cons f fields ih =>
    cases fields with
    | nil => simp [fieldsText, argumentText]
    | cons g fields => rw [fieldsText, ih]; all_goals simp [argumentText]

/-! ### Floating-point numbers -/

/-- What the text of a floating-point number is read as. -/
def rereadFloat (x : Decimal.Binary64) : Value :=
  (Grammar.Reader.read? Grammar.Reader.constant (floatText x)).getD (.float x)

mutual

/-- The value with what its floating-point numbers are read back as. All else is kept. -/
def reread : Value → Value
  | null => null
  | int n => int n
  | float x => rereadFloat x
  | string s => string s
  | boolean b => boolean b
  | enum name => enum name
  | list items => list (rereadItems items)
  | object fields => object (rereadFields fields)

def rereadItems : List Value → List Value
  | [] => []
  | item :: rest => item.reread :: rereadItems rest

def rereadFields : List (String × Value) → List (String × Value)
  | [] => []
  | (name, value) :: rest => (name, value.reread) :: rereadFields rest

end

theorem reread_list (items : List Value) : (list items).reread = list (items.map reread) := by
  rw [reread]
  induction items with
  | nil => rfl
  | cons v items ih => rw [rereadItems, list.inj ih, List.map_cons]

theorem reread_object (fields : List (String × Value)) :
    (object fields).reread = object (fields.map fun f => (f.1, f.2.reread)) := by
  rw [reread]
  induction fields with
  | nil => rfl
  | cons f fields ih => rw [rereadFields, object.inj ih, List.map_cons]

theorem reread_of_isFloatFree {v : Value} (free : v.isFloatFree = true) : v.reread = v := by
  induction v using nested with
  | null | int | string | boolean | enum => rfl
  | float x => cases free
  | list items ih =>
    rw [reread_list, map_eq_self fun v h => ih v h (floatsAll_list.mp free v h)]
  | object fields ih =>
    rw [reread_object, map_eq_self fun f h => by rw [ih f h (floatsAll_object.mp free f h)]]

/-! ### Spelling -/

open Grammar.Token (Spells Separates)

theorem rereadFloat_eq {x : Decimal.Binary64} {t : Token} {v : Value} (spelled : Spells (floatText x) [t])
    (read : Grammar.Reader.constant [t] = some (v, [])) : rereadFloat x = v := by
  rw [rereadFloat, Grammar.Reader.read?_of_scan spelled.scan_eq read]
  rfl

/-- A number is read back as a number if it is not too large, and plus infinity as an enum value. -/
theorem spells_float {x : Decimal.Binary64} (writable : x ≠ .infinite true) :
    Spells (floatText x) (rereadFloat x).tokens ∧ (rereadFloat x).isWellNamed = true := by
  cases x with
  | finite negative significand exponent =>
    obtain ⟨y, spelled⟩ := Token.exists_spells_floatText negative significand exponent
    rw [rereadFloat_eq (v := .float y) spelled rfl]
    exact ⟨spelled, rfl⟩
  | infinite negative =>
    cases negative with
    | true => contradiction
    | false =>
      have spelled : Spells (floatText (.infinite false)) [.name "inf"] := Token.spells_name rfl
      rw [rereadFloat_eq (v := .enum "inf") spelled rfl]
      exact ⟨spelled, by decide⟩

/-- Minus infinity is not read back at all. -/
example : Grammar.Reader.read? Grammar.Reader.constant (floatText (.infinite true)) = none := by decide +kernel

theorem spells_commas {α : Type} {text : α → String} {tokens : α → List Token} {xs : List α}
    (each : ∀ x ∈ xs, Spells (text x) (tokens x)) :
    Spells (", ".intercalate (xs.map text)) (xs.flatMap tokens) := by
  have spelled := Token.spells_intercalate Token.separates_comma each
  rwa [Token.intercalate_nil_eq_flatMap] at spelled

theorem spells_argument {argument : String × Value} {v : Value} (named : Token.isName argument.1 = true)
    (value : Spells argument.2.text v.tokens) :
    Spells (argumentText argument) (argumentTokens (argument.1, v)) := by
  have start := (Token.spells_name named).append_separator Token.separates_colon
  exact start.append_spells value

/-- The text of a value is that of the tokens of what it is read back as. -/
theorem spells_text {v : Value} (spelled : v.isSpelled = true) : Spells v.text v.reread.tokens := by
  obtain ⟨named, writable⟩ := Bool.and_eq_true_iff.mp spelled
  clear spelled
  -- Only for a number the tokens are not those of the value itself.
  induction v using nested with
  | null => exact Token.spells_name rfl
  | int n => exact Token.spells_int n
  | float x => exact (spells_float (of_decide_eq_true writable)).1
  | string s => exact Token.spells_quoted s
  | boolean b => cases b <;> exact Token.spells_name rfl
  | enum name =>
    exact Token.spells_name (isWellNamed_enum.1 named).1
  | list items ih =>
    rw [isWellNamed_list] at named
    rw [text, reread_list, tokens, itemsText_eq, itemsTokens_eq, List.flatMap_map]
    have opening : Separates "[" [.mark '['] := Token.separates_mark rfl rfl
    have closing : Separates "]" [.mark ']'] := Token.separates_mark rfl rfl
    have inside := spells_commas fun v h => ih v h (named v h) (floatsAll_list.mp writable v h)
    exact (opening.enclose inside closing).delimits.spells
  | object fields ih =>
    rw [isWellNamed_object] at named
    rw [text, reread_object, tokens, fieldsText_eq, fieldsTokens_eq, List.flatMap_map]
    have opening : Separates "\x7b" [.mark '\x7b'] := Token.separates_mark rfl rfl
    have closing : Separates "\x7d" [.mark '\x7d'] := Token.separates_mark rfl rfl
    have inside := spells_commas fun f h =>
      spells_argument (named f h).1 (ih f h (named f h).2 (floatsAll_object.mp writable f h))
    exact (opening.enclose inside closing).delimits.spells

/-- What is read back can be read. -/
theorem isWellNamed_reread {v : Value} (spelled : v.isSpelled = true) : v.reread.isWellNamed = true := by
  obtain ⟨named, writable⟩ := Bool.and_eq_true_iff.mp spelled
  clear spelled
  induction v using nested with
  | null | int | string | boolean | enum => exact named
  | float x => exact (spells_float (of_decide_eq_true writable)).2
  | list items ih =>
    rw [reread_list, isWellNamed_list, List.forall_mem_map]
    exact fun v h => ih v h (isWellNamed_list.mp named v h) (floatsAll_list.mp writable v h)
  | object fields ih =>
    rw [reread_object, isWellNamed_object, List.forall_mem_map]
    intro f h
    obtain ⟨field, value⟩ := isWellNamed_object.mp named f h
    exact ⟨field, ih f h value (floatsAll_object.mp writable f h)⟩

end Value

namespace Directive

open Grammar.Token (Spells Separates)

/-- The tokens that an application is written with. Its parentheses are left out where they would be
empty. -/
def tokens (d : Directive) : List Token :=
  .mark '@' :: .name d.name :: Token.enclosed '(' ')' Value.argumentTokens d.arguments

/-- Whether the application can be told from its text. -/
def isReadable (d : Directive) : Bool := d.isLegible Value.isReadable

theorem isLegible_iff {p : Value → Bool} {d : Directive} : d.isLegible p = true ↔
    Token.isName d.name = true ∧ ∀ a ∈ d.arguments, Token.isName a.1 = true ∧ p a.2 = true := by
  simp [isLegible, Value.isLegibleArgument]

theorem spells_text {d : Directive} (spelled : d.isLegible Value.isSpelled = true) :
    Spells d.text (d.mapConstants Value.reread).tokens := by
  obtain ⟨named, arguments⟩ := isLegible_iff.1 spelled
  have sign : Separates "@" [.mark '@'] := Token.separates_mark rfl rfl
  have start := sign.delimits.append_spells (Token.spells_name named)
  rw [tokens, mapConstants, Token.enclosed_map]
  by_cases none : d.arguments.isEmpty
  · rw [text, if_pos none, Token.enclosed, if_pos none]
    exact start
  · rw [text, if_neg none, Token.enclosed, if_neg none]
    have opening : Separates "(" [.mark '('] := Token.separates_mark rfl rfl
    have closing : Separates ")" [.mark ')'] := Token.separates_mark rfl rfl
    have inside := Value.spells_commas fun a h =>
      Value.spells_argument (arguments a h).1 (Value.spells_text (arguments a h).2)
    have opened := start.append_separator opening
    exact ((opened.append_spells inside).append_separator closing).spells

/-- Applications are written one after the other, each after a space. -/
def listTokens (ds : List Directive) : List Token := ds.flatMap tokens

theorem trails_list {ds : List Directive} (spelled : ∀ d ∈ ds, d.isLegible Value.isSpelled = true) :
    Token.Trails (Printer.directives ds) (listTokens (ds.map (·.mapConstants Value.reread))) := by
  rw [listTokens, List.flatMap_map]
  apply Token.trails_join
  intro d h
  exact Token.separates_blank.trails (spells_text (spelled d h))

end Directive

namespace TypeRef

open Grammar.Token (Spells Separates)

/-- The mark of a type without null. -/
def nonNullTokens (nonNull : Bool) : List Token := if nonNull then [.mark '!'] else []

def tokens : TypeRef → List Token
  | named name nonNull => .name name :: nonNullTokens nonNull
  | list item nonNull => .mark '[' :: (item.tokens ++ .mark ']' :: nonNullTokens nonNull)

theorem trails_nonNull (nonNull : Bool) :
    Token.Trails (if nonNull then "!" else "") (nonNullTokens nonNull) := by
  cases nonNull with
  | false => exact .empty
  | true =>
    have mark : Separates "!" [.mark '!'] := Token.separates_mark rfl rfl
    exact ⟨mark.apart, mark.delimits.spells⟩

theorem spells_text {t : TypeRef} (legible : t.isLegible = true) : Spells t.text t.tokens := by
  induction t with
  | named name nonNull =>
    exact (Token.spells_name legible).trailed (trails_nonNull nonNull)
  | list item nonNull ih =>
    have opening : Separates "[" [.mark '['] := Token.separates_mark rfl rfl
    have closing : Separates "]" [.mark ']'] := Token.separates_mark rfl rfl
    have inside := opening.enclose (ih legible) closing
    have whole := inside.delimits.append_spells (trails_nonNull nonNull).spells
    simpa [text, tokens] using whole

end TypeRef

/-- A default after its equals sign, if there is one. -/
def Value.defaultTokens : Option Value → List Token
  | none => []
  | some v => .mark '=' :: v.tokens

theorem Value.trails_default {default? : Option Value} (spelled : ∀ v ∈ default?, v.isSpelled = true) :
    Token.Trails (Printer.withDefault default?) (defaultTokens (default?.map reread)) := by
  cases default? with
  | none => exact .empty
  | some v =>
    have sign : Token.Separates " = " [.mark '='] := Token.separates_spaced "=" rfl rfl
    exact sign.trails (spells_text (spelled v rfl))

end Federation.Schema

namespace Federation.Grammar.Reader

open Schema

/-! ### Reading -/

theorem head?_tokens_ne {c : Char} (noList : c ≠ '[') (noObject : c ≠ '\x7b') (v : Value) :
    v.tokens.head? ≠ some (.mark c) := by
  cases v <;> simp [Value.tokens, noList.symm, noObject.symm]

theorem tokens_ne_nil (v : Value) : v.tokens ≠ [] := by
  cases v <;> simp [Value.tokens]

theorem exists_succ_of_length_le {v : Value} {bound : Nat} (enough : v.tokens.length ≤ bound) :
    ∃ n, bound = n + 1 :=
  Nat.exists_eq_succ_of_ne_zero fun zero =>
    tokens_ne_nil v (List.eq_nil_of_length_eq_zero (Nat.le_zero.1 (zero ▸ enough)))

theorem length_le_of_mem {α : Type} {tokens : α → List Token} {xs : List α} {x : α} (h : x ∈ xs) :
    (tokens x).length ≤ (xs.flatMap tokens).length := by
  rw [List.flatMap_def]
  exact (List.sublist_flatten_of_mem (List.mem_map_of_mem h)).length_le

theorem namedConstant_of_not_mem {name : String} (free : name ∉ Value.reserved) :
    namedConstant name = .enum name := by
  unfold namedConstant
  split <;> simp_all [Value.reserved]

section Constant

variable {meaning? : String → Option Value}

/-- Tokens after a name and a colon are read as the value of a field or an argument. -/
theorem readsItem_argument {value : Reader Value} {argument : String × Value}
    (read : ∀ rest, value (argument.2.tokens ++ rest) = some (argument.2, rest)) :
    ReadsItem (do let name ← name; mark ':'; return (name, ← value)) (fun _ => True)
      (Value.argumentTokens argument) argument where
  read rest _ := by
    refine (bind_of_eq (name_cons _ _) _).trans ?_
    refine (bind_of_eq (expect_cons _ _) _).trans ?_
    exact bind_of_eq (read rest) _
  some_token := List.cons_ne_nil _ _
  before _ := trivial

/-- The tokens of a value are read as that value, whatever follows. Nesting takes tokens, so a bound on
their number is one on the depth. -/
theorem boundedValue_tokens {v : Value} (named : v.isWellNamed = true) {bound : Nat}
    (enough : v.tokens.length ≤ bound) (rest : List Token) :
    boundedValue meaning? bound (v.tokens ++ rest) = some (v, rest) := by
  -- Each value takes a token of its own, so one less is enough for what is inside.
  induction v using Value.nested generalizing bound rest with
  | null | int | float | string =>
    obtain ⟨bound, rfl⟩ := exists_succ_of_length_le enough
    rfl
  | boolean b =>
    obtain ⟨bound, rfl⟩ := exists_succ_of_length_le enough
    cases b <;> rfl
  | enum name =>
    obtain ⟨bound, rfl⟩ := exists_succ_of_length_le enough
    rw [boundedValue]
    refine (bind_of_eq (token_cons _ _) _).trans ?_
    rw [← namedConstant_of_not_mem (Value.isWellNamed_enum.1 named).2]
    rfl
  | list items ih =>
    obtain ⟨bound, rfl⟩ := exists_succ_of_length_le enough
    rw [Value.isWellNamed_list] at named
    simp only [Value.tokens, Value.itemsTokens_eq, List.length_cons, List.length_append] at enough ⊢
    have each : ∀ v ∈ items, ReadsItem (boundedValue meaning? bound) (fun _ => True) v.tokens v :=
      fun v h => {
        read := fun later _ => ih v h (named v h) (by
          have : v.tokens.length ≤ (items.flatMap Value.tokens).length := length_le_of_mem h
          omega) later
        some_token := tokens_ne_nil v
        before := fun _ => trivial }
    have unclosed := fun v (_ : v ∈ items) => head?_tokens_ne (c := ']') (by decide) (by decide) v
    have inside : upTo ']' (boundedValue meaning? bound) (items.flatMap Value.tokens ++ .mark ']' :: rest) =
        some (items.map id, rest) := upTo_flatMap each unclosed trivial
    rw [List.map_id] at inside
    rw [boundedValue, List.cons_append, List.append_assoc, List.singleton_append]
    refine (bind_of_eq (token_cons _ _) _).trans ?_
    exact bind_of_eq inside _
  | object fields ih =>
    obtain ⟨bound, rfl⟩ := exists_succ_of_length_le enough
    rw [Value.isWellNamed_object] at named
    simp only [Value.tokens, Value.fieldsTokens_eq, List.length_cons, List.length_append] at enough ⊢
    have value : ∀ f ∈ fields, ∀ later,
        boundedValue meaning? bound (f.2.tokens ++ later) = some (f.2, later) := by
      intro f h later
      apply ih f h (named f h).2
      have : (Value.argumentTokens f).length ≤ (fields.flatMap Value.argumentTokens).length := length_le_of_mem h
      simp only [Value.argumentTokens, List.length_cons] at this
      omega
    have each := fun f (h : f ∈ fields) => readsItem_argument (value f h)
    have unclosed : ∀ f ∈ fields, (Value.argumentTokens f).head? ≠ some (.mark '\x7d') := by
      simp [Value.argumentTokens]
    have inside : upTo '\x7d' _ (fields.flatMap Value.argumentTokens ++ .mark '\x7d' :: rest) =
        some (fields.map id, rest) := upTo_flatMap each unclosed trivial
    rw [List.map_id] at inside
    rw [boundedValue, List.cons_append, List.append_assoc, List.singleton_append]
    refine (bind_of_eq (token_cons _ _) _).trans ?_
    exact bind_of_eq inside _

end Constant

theorem constant_tokens {v : Value} (named : v.isWellNamed = true) (rest : List Token) :
    constant (v.tokens ++ rest) = some (v, rest) := by
  refine (bind_of_eq (get_apply _) _).trans ?_
  exact boundedValue_tokens named (by simp) rest

theorem arguments_tokens {arguments : List (String × Value)}
    (named : ∀ a ∈ arguments, Token.isName a.1 = true ∧ a.2.isWellNamed = true) {rest : List Token}
    (absent : rest.head? ≠ some (.mark '(')) :
    Reader.arguments constant (Token.enclosed '(' ')' Value.argumentTokens arguments ++ rest) =
      some (arguments, rest) := by
  have each := fun a (h : a ∈ arguments) =>
    readsItem_argument (constant_tokens (named a h).2)
  have unclosed : ∀ a ∈ arguments, (Value.argumentTokens a).head? ≠ some (.mark ')') := by
    simp [Value.argumentTokens]
  have read := optionalBetween_enclosed (f := id) each unclosed trivial absent
  rwa [List.map_id] at read

/-- The tokens of an application are read as that application unless an opening parenthesis follows. -/
theorem directive_tokens {d : Directive} (named : d.isLegible Value.isWellNamed = true) {rest : List Token}
    (absent : rest.head? ≠ some (.mark '(')) :
    directive constant (d.tokens ++ rest) = some (d, rest) := by
  refine (bind_of_eq (expect_cons _ _) _).trans ?_
  refine (bind_of_eq (name_cons _ _) _).trans ?_
  exact bind_of_eq (arguments_tokens (Directive.isLegible_iff.1 named).2 absent) _

theorem directives_tokens {ds : List Directive} (named : ∀ d ∈ ds, d.isLegible Value.isWellNamed = true)
    {rest : List Token} (noMore : rest.head? ≠ some (.mark '@')) (absent : rest.head? ≠ some (.mark '(')) :
    constantDirectives (Directive.listTokens ds ++ rest) = some (ds, rest) := by
  have each : ∀ d ∈ ds, ReadsItem (directive constant) (fun later => later.head? ≠ some (.mark '('))
      d.tokens d := fun d h => {
    read := fun later absent => directive_tokens (named d h) absent
    some_token := List.cons_ne_nil _ _
    before := fun later => by simp [Directive.tokens] }
  have read := whileNext_flatMap (f := id) each (fun _ _ => rfl) absent noMore
  rwa [List.map_id] at read

theorem acceptBang_tokens (nonNull : Bool) {rest : List Token} (absent : rest.head? ≠ some (.mark '!')) :
    acceptMark '!' (TypeRef.nonNullTokens nonNull ++ rest) = some (nonNull, rest) := by
  cases nonNull with
  | false => exact accept_of_head? absent
  | true => exact accept_cons _ _

theorem boundedTypeRef_tokens (t : TypeRef) {bound : Nat} (enough : t.tokens.length ≤ bound)
    {rest : List Token} (absent : rest.head? ≠ some (.mark '!')) :
    boundedTypeRef bound (t.tokens ++ rest) = some (t, rest) := by
  -- Each bracket takes a token, so one less is enough for what is inside.
  induction t generalizing bound rest with
  | named name nonNull =>
    cases bound with
    | zero => simp [TypeRef.tokens] at enough
    | succ bound =>
      refine (bind_of_eq (token_cons _ _) _).trans ?_
      exact bind_of_eq (acceptBang_tokens nonNull absent) _
  | list item nonNull ih =>
    cases bound with
    | zero => simp [TypeRef.tokens] at enough
    | succ bound =>
      simp only [TypeRef.tokens, List.length_cons, List.length_append] at enough
      simp only [TypeRef.tokens, List.cons_append, List.append_assoc]
      refine (bind_of_eq (token_cons _ _) _).trans ?_
      refine (bind_of_eq (ih (by omega) (by simp)) _).trans ?_
      refine (bind_of_eq (expect_cons _ _) _).trans ?_
      exact bind_of_eq (acceptBang_tokens nonNull absent) _

theorem typeRef_tokens (t : TypeRef) {rest : List Token} (absent : rest.head? ≠ some (.mark '!')) :
    typeRef (t.tokens ++ rest) = some (t, rest) := by
  refine (bind_of_eq (get_apply _) _).trans ?_
  exact boundedTypeRef_tokens t (by simp) absent

theorem default?_tokens {d : Option Value} (named : ∀ v ∈ d, v.isWellNamed = true)
    {rest : List Token} (absent : rest.head? ≠ some (.mark '=')) :
    default? (Value.defaultTokens d ++ rest) = some (d, rest) := by
  cases d with
  | none => exact bind_of_eq (accept_of_head? absent) _
  | some v =>
    refine (bind_of_eq (accept_cons _ _) _).trans ?_
    exact bind_of_eq (constant_tokens (named v rfl) rest) _

/-! ### Round trips -/

/-- What is read back from its written form is the only thing with that form. -/
theorem injOn_of_read? {α : Type} {reader : Reader α} {text : α → String} {readable : α → Bool}
    (back : ∀ x, readable x = true → read? reader (text x) = some x) :
    Set.InjOn text {x | readable x = true} := by
  intro x hx y hy same
  have := back x hx
  rw [same, back y hy] at this
  exact (Option.some.inj this).symm

theorem read?_text {v : Value} (spelled : v.isSpelled = true) : read? constant v.text = some v.reread := by
  have read := constant_tokens (Value.isWellNamed_reread spelled) []
  rw [List.append_nil] at read
  exact read?_of_scan (Value.spells_text spelled).scan_eq read

theorem read?_directive_text {d : Directive} (spelled : d.isLegible Value.isSpelled = true) :
    read? (directive constant) d.text = some (d.mapConstants Value.reread) := by
  have named : (d.mapConstants Value.reread).isLegible Value.isWellNamed = true :=
    d.isLegible_mapConstants (fun _ => Value.isWellNamed_reread) spelled
  have read : directive constant ((d.mapConstants Value.reread).tokens ++ []) = _ := directive_tokens named (by simp)
  rw [List.append_nil] at read
  exact read?_of_scan (Directive.spells_text spelled).scan_eq read

theorem read?_text_of_isReadable {v : Value} (readable : v.isReadable = true) : read? constant v.text = some v := by
  rw [read?_text (Value.isSpelled_of_isReadable readable),
    Value.reread_of_isFloatFree (Bool.and_eq_true_iff.mp readable).2]

theorem read?_directive_text_of_isReadable {d : Directive} (readable : d.isReadable = true) :
    read? (directive constant) d.text = some d := by
  obtain ⟨named, arguments⟩ := Directive.isLegible_iff.mp readable
  have spelled : d.isLegible Value.isSpelled = true := Directive.isLegible_iff.mpr
    ⟨named, fun a h => ⟨(arguments a h).1, Value.isSpelled_of_isReadable (arguments a h).2⟩⟩
  have same : d.mapConstants Value.reread = d := d.mapConstants_eq_self <| List.forall_mem_map.mpr fun a h =>
    Value.reread_of_isFloatFree (Bool.and_eq_true_iff.mp (arguments a h).2).2
  rw [read?_directive_text spelled, same]

/-- Constants without floating-point numbers and applications with such arguments are read back from
their written form, however deeply they are nested and whatever characters their strings hold, if
enum values, fields, arguments and directives have names of the grammar and no enum value is named like
another constant. So no two of them are written alike. -/
theorem constants_and_applications_read_back :
    (∀ v : Value, v.isReadable = true → read? constant v.text = some v) ∧
    (∀ d : Directive, d.isReadable = true → read? (directive constant) d.text = some d) ∧
    Set.InjOn Value.text {v | v.isReadable = true} ∧
    Set.InjOn Directive.text {d | d.isReadable = true} :=
  ⟨fun _ => read?_text_of_isReadable, fun _ => read?_directive_text_of_isReadable,
    injOn_of_read? fun _ => read?_text_of_isReadable, injOn_of_read? fun _ => read?_directive_text_of_isReadable⟩

theorem nested_constant_reads_back :
    let v := Value.list [.object [("a", .string "\"\\\n\x07\t\u00e9\u007f"), ("_b2", .enum "RED")], .int (-20),
      .list [.boolean true, .null, .string ""]]
    let d : Directive := ⟨"range", [("of", v), ("of", .list [])]⟩
    read? constant v.text = some v ∧ read? (directive constant) d.text = some d :=
  ⟨constants_and_applications_read_back.1 _ (by decide +kernel),
    constants_and_applications_read_back.2.1 _ (by decide +kernel)⟩

end Federation.Grammar.Reader
