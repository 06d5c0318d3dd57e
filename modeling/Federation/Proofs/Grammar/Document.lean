import Federation.Proofs.Grammar.Definition

/-!
A written document is read back, definition by definition. What comes back is the document itself but for its
descriptions and its floating-point numbers: arguments are written without descriptions, a block string may change a
text, and a number comes back as what its text is read as.
-/

namespace Federation

open Schema

/-! ### What is read of a definition -/

namespace Schema

namespace InputValueDefinition

def withDescription (v : InputValueDefinition) (description : Option String) : InputValueDefinition :=
  { v with description }

/-- A field of an input object as it is read back. -/
def asRead (v : InputValueDefinition) : InputValueDefinition :=
  v.withDescription (v.description.map (Printer.readBack Printer.indent))

end InputValueDefinition

/-- A field as it is read back. Its arguments lose their descriptions. -/
def FieldDefinition.asRead (f : FieldDefinition) : FieldDefinition :=
  { f with
    description := f.description.map (Printer.readBack Printer.indent)
    arguments := f.arguments.map (·.withDescription none) }

def EnumValueDefinition.asRead (v : EnumValueDefinition) : EnumValueDefinition :=
  { v with description := v.description.map (Printer.readBack Printer.indent) }

def TypeBody.asRead : TypeBody → TypeBody
  | enum values => enum (values.map EnumValueDefinition.asRead)
  | inputObject fields => inputObject (fields.map InputValueDefinition.asRead)
  | interface interfaces fields => interface interfaces (fields.map FieldDefinition.asRead)
  | object interfaces fields => object interfaces (fields.map FieldDefinition.asRead)
  | scalar => scalar
  | union members => union members

def TypeDefinition.asRead (t : TypeDefinition) : TypeDefinition :=
  { t with description := t.description.map (Printer.readBack ""), body := t.body.asRead }

def DirectiveDefinition.asRead (d : DirectiveDefinition) : DirectiveDefinition :=
  { d with description := d.description.map (Printer.readBack "") }

def Definition.asRead : Definition → Definition
  | directive d => directive d.asRead
  | schema s => schema s
  | type t => type t.asRead

/-! ### Descriptions and constants are read apart from each other -/

theorem FieldDefinition.asRead_mapConstants (g : Value → Value) (f : FieldDefinition) :
    (f.mapConstants g).asRead = f.asRead.mapConstants g := by
  simp only [asRead, mapConstants, List.map_map]
  rfl

theorem TypeBody.asRead_mapConstants (g : Value → Value) (b : TypeBody) :
    (b.mapConstants g).asRead = b.asRead.mapConstants g := by
  cases b with
  | enum values => exact congrArg enum (by simp only [List.map_map]; rfl)
  | inputObject fields => exact congrArg inputObject (by simp only [List.map_map]; rfl)
  | interface interfaces fields | object interfaces fields =>
    simp only [asRead, mapConstants, List.map_map, Function.comp_def, FieldDefinition.asRead_mapConstants]
  | scalar => rfl
  | union members => rfl

theorem Definition.asRead_mapConstants (g : Value → Value) (d : Definition) :
    (d.mapConstants g).asRead = d.asRead.mapConstants g := by
  cases d with
  | directive d => rfl
  | schema s => rfl
  | type t =>
    simp only [asRead, mapConstants, TypeDefinition.asRead, TypeDefinition.mapConstants, TypeBody.asRead_mapConstants]

end Schema

namespace Grammar

namespace Reader

/-! ### Elements of types -/

/-- No optional part of what was read begins with the next token. -/
def Ends (rest : List Token) : Prop :=
  ∀ c ∈ ['!', '(', '@', '=', '&', '\x7b', '|'], rest.head? ≠ some (.mark c)

theorem ends_of_head? {t : Token} {rest : List Token} (first : rest.head? = some t)
    (other : ∀ c ∈ ['!', '(', '@', '=', '&', '\x7b', '|'], t ≠ .mark c) : Ends rest := by
  intro c h same
  exact other c h (Option.some.inj (first.symm.trans same))

theorem ends_nil : Ends [] := by simp [Ends]

theorem ends_close {c : Char} (closing : c ∈ [')', '\x7d']) (rest : List Token) : Ends (.mark c :: rest) := by
  apply ends_of_head? rfl
  simp only [List.mem_cons, List.not_mem_nil, or_false] at closing
  rcases closing with rfl | rfl <;> simp

theorem ends_name (s : String) (rest : List Token) : Ends (.name s :: rest) :=
  ends_of_head? rfl (by simp)

theorem ends_string (s : String) (rest : List Token) : Ends (.string s :: rest) :=
  ends_of_head? rfl (by simp)

/-- After applications no token can begin another optional part that comes before them. -/
theorem head?_directives_ne (ds : List Directive) {t : Token} {rest : List Token} (other : t ≠ .mark '@')
    (absent : rest.head? ≠ some t) : (Directive.listTokens ds ++ rest).head? ≠ some t := by
  cases ds with
  | nil => exact absent
  | cons d ds =>
    simp [Directive.listTokens, Directive.tokens]
    exact other.symm

theorem head?_default_ne {d : Option Value} {t : Token} {rest : List Token} (other : t ≠ .mark '=')
    (absent : rest.head? ≠ some t) : (Value.defaultTokens d ++ rest).head? ≠ some t := by
  cases d with
  | none => exact absent
  | some v =>
    simp [Value.defaultTokens]
    exact other.symm

theorem head?_enclosed_ne {α : Type} {opening closing : Char} {tokens : α → List Token} {xs : List α}
    {t : Token} {rest : List Token} (other : .mark opening ≠ t) (absent : rest.head? ≠ some t) :
    (Token.enclosed opening closing tokens xs ++ rest).head? ≠ some t := by
  cases xs with
  | nil => exact absent
  | cons x xs => exact fun same => other (Option.some.inj same)

theorem head?_members_ne {members : List String} {t : Token} {rest : List Token} (other : .mark '=' ≠ t)
    (absent : rest.head? ≠ some t) : (TypeBody.memberTokens members ++ rest).head? ≠ some t := by
  cases members with
  | nil => exact absent
  | cons member members => exact fun same => other (Option.some.inj same)

theorem string?_description (margin : String) (description : Option String) (name : String)
    (rest : List Token) :
    string? (Printer.descriptionTokens margin description ++ .name name :: rest) =
      some (description.map (Printer.readBack margin), .name name :: rest) := by
  cases description <;> rfl

theorem inputValueDefinition_tokens {margin : String} (description : Option String)
    {v : InputValueDefinition} (legible : v.isLegible Value.isWellNamed = true) {rest : List Token}
    (ends : Ends rest) :
    inputValueDefinition (Printer.descriptionTokens margin description ++ (v.tokens ++ rest)) =
      some (v.withDescription (description.map (Printer.readBack margin)), rest) := by
  simp only [InputValueDefinition.isLegible, Bool.and_eq_true, Option.all_eq_true, List.all_eq_true]
    at legible
  obtain ⟨⟨-, default⟩, directives⟩ := legible
  have noEquals := head?_directives_ne v.directives (by decide) (ends '=' (by decide))
  have noBang := head?_default_ne (d := v.default?) (by decide)
    (head?_directives_ne v.directives (by decide) (ends '!' (by decide)))
  simp only [InputValueDefinition.tokens, List.cons_append, List.append_assoc]
  refine (bind_of_eq (string?_description margin description _ _) _).trans ?_
  refine (bind_of_eq (name_cons _ _) _).trans ?_
  refine (bind_of_eq (expect_cons _ _) _).trans ?_
  refine (bind_of_eq (typeRef_tokens v.type noBang) _).trans ?_
  refine (bind_of_eq (default?_tokens default noEquals) _).trans ?_
  exact bind_of_eq (directives_tokens directives (ends '@' (by decide)) (ends '(' (by decide))) _

/-- What may be described starts with its description or its name, so with no mark. -/
theorem head?_described (margin : String) (description : Option String) (name : String) (ts : List Token) :
    ∃ t, (Printer.descriptionTokens margin description ++ .name name :: ts).head? = some t ∧
      ∀ c, t ≠ .mark c := by
  cases description with
  | none => exact ⟨_, rfl, by simp⟩
  | some s => exact ⟨_, rfl, by simp⟩

/-- What may be described as an item of a repetition. -/
theorem readsItem_described {α : Type} {item : Reader α} {ts : List Token} {y : α}
    (described : ∃ margin description name later, ts =
      Printer.descriptionTokens margin description ++ .name name :: later)
    (read : ∀ later, Ends later → item (ts ++ later) = some (y, later)) :
    ReadsItem item Ends ts y ∧ ∀ c, ts.head? ≠ some (.mark c) := by
  obtain ⟨margin, description, name, following, rfl⟩ := described
  refine ⟨⟨read, by simp, fun later => ?_⟩, fun c same => ?_⟩
  · obtain ⟨t, first, other⟩ := head?_described margin description name (following ++ later)
    rw [List.append_assoc, List.cons_append]
    exact ends_of_head? first fun c _ => other c
  · obtain ⟨t, first, other⟩ := head?_described margin description name following
    exact other c (Option.some.inj (first.symm.trans same))

theorem argument_item {v : InputValueDefinition} (legible : v.isLegible Value.isWellNamed = true) :
    ReadsItem inputValueDefinition Ends v.tokens (v.withDescription none) ∧
      ∀ c, v.tokens.head? ≠ some (.mark c) := by
  refine readsItem_described ⟨"", none, _, _, rfl⟩ fun later ends => ?_
  have read : inputValueDefinition (Printer.descriptionTokens "" none ++ (v.tokens ++ later)) = _ :=
    inputValueDefinition_tokens none legible ends
  exact read

theorem inputField_item {v : InputValueDefinition} (legible : v.isLegible Value.isWellNamed = true) :
    ReadsItem inputValueDefinition Ends v.fieldTokens v.asRead ∧
      ∀ c, v.fieldTokens.head? ≠ some (.mark c) := by
  refine readsItem_described ⟨Printer.indent, v.description, _, _, rfl⟩ fun later ends => ?_
  rw [InputValueDefinition.fieldTokens, List.append_assoc]
  exact inputValueDefinition_tokens v.description legible ends

theorem argumentDefinitions_tokens {vs : List InputValueDefinition}
    (legible : ∀ v ∈ vs, v.isLegible Value.isWellNamed = true) {rest : List Token}
    (absent : rest.head? ≠ some (.mark '(')) :
    argumentDefinitions (Token.enclosed '(' ')' InputValueDefinition.tokens vs ++ rest) =
      some (vs.map (·.withDescription none), rest) :=
  optionalSomeBetween_enclosed (fun v h => (argument_item (legible v h)).1)
    (fun v h => (argument_item (legible v h)).2 ')') (ends_close (by decide) rest) absent

theorem field_item {f : FieldDefinition} (legible : f.isLegible Value.isWellNamed = true) :
    ReadsItem fieldDefinition Ends f.tokens f.asRead ∧ ∀ c, f.tokens.head? ≠ some (.mark c) := by
  refine readsItem_described ⟨Printer.indent, f.description, _, _, rfl⟩ fun later ends => ?_
  simp only [FieldDefinition.isLegible, Bool.and_eq_true, List.all_eq_true] at legible
  obtain ⟨⟨⟨-, arguments⟩, -⟩, directives⟩ := legible
  have noBang := head?_directives_ne f.directives (by decide) (ends '!' (by decide))
  simp only [FieldDefinition.tokens, List.cons_append, List.append_assoc]
  refine (bind_of_eq (string?_description Printer.indent f.description _ _) _).trans ?_
  refine (bind_of_eq (name_cons _ _) _).trans ?_
  refine (bind_of_eq (argumentDefinitions_tokens arguments (by simp)) _).trans ?_
  refine (bind_of_eq (expect_cons _ _) _).trans ?_
  refine (bind_of_eq (typeRef_tokens f.type noBang) _).trans ?_
  exact bind_of_eq (directives_tokens directives (ends '@' (by decide)) (ends '(' (by decide))) _

theorem enumValueName_cons {s : String} (free : s ∉ Value.reserved) (rest : List Token) :
    enumValueName (.name s :: rest) = some (s, rest) := by
  have free : s ∉ ["true", "false", "null"] := by
    simp only [Value.reserved, List.mem_cons, List.not_mem_nil, or_false, not_or] at free ⊢
    tauto
  refine (bind_of_eq (name_cons s rest) _).trans ?_
  exact bind_of_eq (guard_apply free rest) _

theorem enumValue_item {v : EnumValueDefinition} (legible : v.isLegible Value.isWellNamed = true) :
    ReadsItem enumValueDefinition Ends v.tokens v.asRead ∧ ∀ c, v.tokens.head? ≠ some (.mark c) := by
  refine readsItem_described ⟨Printer.indent, v.description, _, _, rfl⟩ fun later ends => ?_
  simp only [EnumValueDefinition.isLegible, Bool.and_eq_true, List.all_eq_true, decide_eq_true_eq]
    at legible
  obtain ⟨⟨-, free⟩, directives⟩ := legible
  simp only [EnumValueDefinition.tokens, List.cons_append, List.append_assoc]
  refine (bind_of_eq (string?_description Printer.indent v.description _ _) _).trans ?_
  refine (bind_of_eq (enumValueName_cons free _) _).trans ?_
  exact bind_of_eq (directives_tokens directives (ends '@' (by decide)) (ends '(' (by decide))) _

/-! ### Types -/

theorem names_item (name : String) :
    ReadsItem Reader.name (fun _ => True) (TypeBody.nameTokens name) name where
  read later _ := name_cons name later
  some_token := List.cons_ne_nil _ _
  before _ := trivial

theorem separated_names {c : Char} {names : List String} (some_name : names ≠ []) {rest : List Token}
    (stops : rest.head? ≠ some (.mark c)) :
    separated c Reader.name (Token.separatedBy c TypeBody.nameTokens names ++ rest) = some (names, rest) := by
  have read := separated_separatedBy (f := id) (fun n (_ : n ∈ names) => names_item n)
    (fun _ => trivial) trivial stops some_name (by simp [TypeBody.nameTokens])
  rwa [List.map_id] at read

theorem implementedInterfaces_tokens {interfaces : List String} {rest : List Token}
    (noKeyword : rest.head? ≠ some (.name "implements")) (stops : rest.head? ≠ some (.mark '&')) :
    implementedInterfaces (TypeBody.implementsTokens interfaces ++ rest) = some (interfaces, rest) := by
  unfold implementedInterfaces TypeBody.implementsTokens
  cases interfaces with
  | nil => exact bind_of_eq (accept_of_head? noKeyword) _
  | cons interface interfaces =>
    refine (bind_of_eq (accept_cons _ _) _).trans ?_
    exact separated_names (List.cons_ne_nil _ _) stops

/-- The types of a kind are read after their keyword and name. -/
theorem typeAfterName_tokens (name : String) (description : Option String) {applied : List Directive}
    (directives : ∀ d ∈ applied, d.isLegible Value.isWellNamed = true) {b : TypeBody}
    (legible : b.isLegible Value.isWellNamed = true) {rest : List Token} (ends : Ends rest)
    (noKeyword : rest.head? ≠ some (.name "implements")) :
    typeAfterName (Printer.keyword b.kind) name description (b.tokens applied ++ rest) =
      some ({ name, description, directives := applied, body := b.asRead }, rest) := by
  have applications {following : List Token} (noSign : following.head? ≠ some (.mark '@'))
      (noParenthesis : following.head? ≠ some (.mark '(')) :=
    directives_tokens directives noSign noParenthesis
  have noBrace := ends '\x7b' (by decide)
  -- Where there is no block, what follows the type ends its directives.
  have noSign {α : Type} (tokens : α → List Token) (items : List α) :
      (Token.enclosed '\x7b' '\x7d' tokens items ++ rest).head? ≠ some (.mark '@') :=
    head?_enclosed_ne (by decide) (ends '@' (by decide))
  have beforeBlock {α : Type} {tokens : α → List Token} {items : List α} :=
    applications (noSign tokens items) (head?_enclosed_ne (by decide) (ends '(' (by decide)))
  cases b with
  | enum values =>
    simp only [TypeBody.isLegible, List.all_eq_true] at legible
    have list := optionalSomeBetween_enclosed (fun v h => (enumValue_item (legible v h)).1)
      (fun v h => (enumValue_item (legible v h)).2 '\x7d') (ends_close (by decide) rest) noBrace
    rw [TypeBody.tokens, List.append_assoc]
    refine (bind_of_eq beforeBlock _).trans ?_
    exact bind_of_eq list _
  | inputObject fields =>
    simp only [TypeBody.isLegible, List.all_eq_true] at legible
    have list := optionalSomeBetween_enclosed (fun v h => (inputField_item (legible v h)).1)
      (fun v h => (inputField_item (legible v h)).2 '\x7d') (ends_close (by decide) rest) noBrace
    rw [TypeBody.tokens, List.append_assoc]
    refine (bind_of_eq beforeBlock _).trans ?_
    exact bind_of_eq list _
  | interface interfaces fields | object interfaces fields =>
    simp only [TypeBody.isLegible, Bool.and_eq_true, List.all_eq_true] at legible
    have list := optionalSomeBetween_enclosed (fun f h => (field_item (legible.2 f h)).1)
      (fun f h => (field_item (legible.2 f h)).2 '\x7d') (ends_close (by decide) rest) noBrace
    rw [TypeBody.tokens, List.append_assoc, List.append_assoc]
    refine (bind_of_eq (implementedInterfaces_tokens
      (head?_directives_ne applied (by decide) (head?_enclosed_ne (by decide) noKeyword))
      (head?_directives_ne applied (by decide) (head?_enclosed_ne (by decide) (ends '&' (by decide))))) _).trans ?_
    refine (bind_of_eq beforeBlock _).trans ?_
    exact bind_of_eq list _
  | scalar =>
    exact bind_of_eq (applications (ends '@' (by decide)) (ends '(' (by decide))) _
  | union members =>
    rw [TypeBody.tokens, List.append_assoc]
    refine (bind_of_eq (applications (head?_members_ne (by decide) (ends '@' (by decide)))
      (head?_members_ne (by decide) (ends '(' (by decide)))) _).trans ?_
    cases members with
    | nil => exact bind_of_eq (accept_of_head? (ends '=' (by decide))) _
    | cons member members =>
      refine (bind_of_eq (accept_cons _ _) _).trans ?_
      exact bind_of_eq (separated_names (List.cons_ne_nil _ _) (ends '|' (by decide))) _

/-! ### Definitions -/

theorem location_item (l : Location) :
    ReadsItem location (fun _ => True) (DirectiveDefinition.locationTokens l) l where
  read later _ := by
    refine (bind_of_eq (name_cons _ _) _).trans ?_
    rw [Location.ofText?_text]
    rfl
  some_token := List.cons_ne_nil _ _
  before _ := trivial

theorem acceptRepeatable_tokens (isRepeatable : Bool) {rest : List Token}
    (other : rest.head? ≠ some (.name "repeatable")) :
    acceptKeyword "repeatable" (DirectiveDefinition.repeatableTokens isRepeatable ++ rest) =
      some (isRepeatable, rest) := by
  cases isRepeatable with
  | false => exact accept_of_head? other
  | true => exact accept_cons _ _

/-- The arguments of a directive are read as those of a field and keep what such a definition keeps. -/
theorem directiveArguments_tokens {arguments : List ArgumentDefinition}
    (legible : ∀ a ∈ arguments, a.isLegible Value.isWellNamed = true) {rest : List Token}
    (absent : rest.head? ≠ some (.mark '(')) :
    argumentDefinitions (Token.enclosed '(' ')' (fun a => a.asInput.tokens) arguments ++ rest) =
      some (arguments.map ArgumentDefinition.asInput, rest) :=
  optionalSomeBetween_enclosed
    (fun a h => (argument_item (ArgumentDefinition.isLegible_asInput (legible a h))).1)
    (fun a h => (argument_item (ArgumentDefinition.isLegible_asInput (legible a h))).2 ')')
    (ends_close (by decide) rest) absent

theorem directiveDefinition_tokens (description : Option String) {d : DirectiveDefinition}
    (legible : d.isLegible Value.isWellNamed = true) {rest : List Token} (ends : Ends rest) :
    directiveDefinition description (.mark '@' :: .name d.name ::
        (Token.enclosed '(' ')' (fun a => a.asInput.tokens) d.arguments ++
          (DirectiveDefinition.repeatableTokens d.isRepeatable ++
            .name "on" :: (Token.separatedBy '|' DirectiveDefinition.locationTokens d.locations ++ rest)))) =
      some ({ d with description }, rest) := by
  simp only [DirectiveDefinition.isLegible, Bool.and_eq_true, List.all_eq_true, decide_eq_true_eq,
    Bool.not_eq_true', List.isEmpty_eq_false_iff] at legible
  obtain ⟨⟨⟨-, arguments⟩, some_place⟩, ordered⟩ := legible
  have places := separated_separatedBy (f := id)
    (fun l (_ : l ∈ d.locations) => location_item l) (fun _ => trivial) trivial (ends '|' (by decide))
    some_place (by simp [DirectiveDefinition.locationTokens])
  rw [List.map_id] at places
  have noParenthesis : (DirectiveDefinition.repeatableTokens d.isRepeatable ++ .name "on" ::
      (Token.separatedBy '|' DirectiveDefinition.locationTokens d.locations ++ rest)).head? ≠
        some (.mark '(') := by
    cases d.isRepeatable <;> simp [DirectiveDefinition.repeatableTokens]
  refine (bind_of_eq (expect_cons _ _) _).trans ?_
  refine (bind_of_eq (name_cons _ _) _).trans ?_
  refine (bind_of_eq (directiveArguments_tokens arguments noParenthesis) _).trans ?_
  refine (bind_of_eq (acceptRepeatable_tokens d.isRepeatable (by simp)) _).trans ?_
  refine (bind_of_eq (expect_cons _ _) _).trans ?_
  refine (bind_of_eq places _).trans ?_
  rw [ordered, List.map_map]
  -- Of an argument of a directive nothing else is written, so nothing is lost.
  have same : d.arguments.map ((fun a => ⟨a.name, a.type, a.default?⟩) ∘ ArgumentDefinition.asInput) =
      d.arguments := List.map_id _
  rw [same]
  rfl

theorem rootOperation_item (root : Operation × String) :
    ReadsItem rootOperation (fun _ => True) (SchemaDefinition.rootTokens root) root where
  read later _ := by
    have known : Operation.ofText? root.1.text = some root.1 := by
      cases root.1 <;> decide
    refine (bind_of_eq (name_cons _ _) _).trans ?_
    rw [known]
    refine (bind_of_eq (expect_cons _ _) _).trans ?_
    exact bind_of_eq (name_cons _ _) _
  some_token := List.cons_ne_nil _ _
  before _ := trivial

/-- What follows a definition of a document: nothing, or tokens that cannot go on with it. -/
def EndsDefinition (rest : List Token) : Prop :=
  Ends rest ∧ rest.head? ≠ some (.name "implements")

theorem statement_directive {d : DirectiveDefinition} (legible : d.isLegible Value.isWellNamed = true)
    {rest : List Token} (ends : EndsDefinition rest) :
    statement (d.tokens ++ rest) = some (.define (.directive d.asRead), rest) := by
  simp only [DirectiveDefinition.tokens, List.append_assoc, List.cons_append]
  refine (bind_of_eq (string?_description "" d.description _ _) _).trans ?_
  refine (bind_of_eq (name_cons _ _) _).trans ?_
  exact bind_of_eq (directiveDefinition_tokens _ legible ends.1) _

theorem statement_schema {s : SchemaDefinition} (legible : s.isLegible Value.isWellNamed = true)
    (rest : List Token) : statement (s.tokens ++ rest) = some (.define (.schema s), rest) := by
  simp only [SchemaDefinition.isLegible, Bool.and_eq_true, List.all_eq_true] at legible
  have unclosed : ∀ root ∈ s.operationTypes, (SchemaDefinition.rootTokens root).head? ≠ some (.mark '\x7d') := by
    simp [SchemaDefinition.rootTokens]
  have roots : upTo '\x7d' rootOperation (s.operationTypes.flatMap SchemaDefinition.rootTokens ++
      .mark '\x7d' :: rest) = some (s.operationTypes.map id, rest) :=
    upTo_flatMap (fun root _ => rootOperation_item root) unclosed trivial
  rw [List.map_id] at roots
  simp only [SchemaDefinition.tokens, List.append_assoc, List.cons_append, List.nil_append]
  refine (bind_of_eq (string?_description "" none _ _) _).trans ?_
  refine (bind_of_eq (name_cons _ _) _).trans ?_
  refine (bind_of_eq (directives_tokens legible.1 (by simp) (by simp)) _).trans ?_
  exact bind_of_eq (bind_of_eq (expect_cons _ _) _ |>.trans roots) _

theorem statement_type {t : TypeDefinition} (legible : t.isLegible Value.isWellNamed = true)
    {rest : List Token} (ends : EndsDefinition rest) :
    statement (t.tokens ++ rest) = some (.define (.type t.asRead), rest) := by
  simp only [TypeDefinition.isLegible, Bool.and_eq_true, List.all_eq_true] at legible
  obtain ⟨⟨-, directives⟩, body⟩ := legible
  have inside := typeAfterName_tokens t.name (t.description.map (Printer.readBack "")) directives body
    ends.1 ends.2
  simp only [TypeDefinition.tokens, List.append_assoc, List.cons_append]
  refine (bind_of_eq (string?_description "" t.description _ _) _).trans ?_
  refine (bind_of_eq (name_cons _ _) _).trans ?_
  unfold TypeDefinition.kind
  -- No keyword of a type is one of the words that begin other statements.
  cases kind : t.body.kind <;> rw [kind] at inside <;>
    exact (bind_of_eq (name_cons _ _) _).trans (bind_of_eq inside _)

/-- A definition is read back from its tokens, whatever definition follows. -/
theorem statement_tokens {d : Definition} (legible : d.isLegible Value.isWellNamed = true)
    {rest : List Token} (ends : EndsDefinition rest) :
    statement (d.tokens ++ rest) = some (.define d.asRead, rest) := by
  cases d with
  | directive d => exact statement_directive legible ends
  | schema s => exact statement_schema legible rest
  | type t => exact statement_type legible ends

theorem endsDefinition_tokens (d : Definition) (later : List Token) : EndsDefinition (d.tokens ++ later) := by
  have described (margin : String) (description : Option String) {name : String} (following : List Token)
      (other : name ≠ "implements") :
      EndsDefinition (Printer.descriptionTokens margin description ++ .name name :: following) := by
    cases description with
    | none => exact ⟨ends_name _ _, by simpa [Printer.descriptionTokens] using other⟩
    | some s => exact ⟨ends_string _ _, by simp [Printer.descriptionTokens]⟩
  cases d with
  | directive d =>
    simp only [Definition.tokens, DirectiveDefinition.tokens, List.append_assoc, List.cons_append]
    exact described "" d.description _ (by decide)
  | schema s => exact described "" none _ (by decide)
  | type t =>
    simp only [Definition.tokens, TypeDefinition.tokens, List.append_assoc, List.cons_append]
    exact described "" t.description _ (by cases t.kind <;> decide)

theorem definitionTokens_ne_nil (d : Definition) : d.tokens ≠ [] := by
  cases d with
  | directive d => simp [Definition.tokens, DirectiveDefinition.tokens]
  | schema s => simp [Definition.tokens, SchemaDefinition.tokens]
  | type t => simp [Definition.tokens, TypeDefinition.tokens]

end Reader

open Reader

/-- A legible document is read back definition by definition. Descriptions may come back changed, and floating-point
numbers as what their texts are read as. -/
theorem readStatements?_text {document : Document} (some_definition : document ≠ [])
    (spelled : ∀ d ∈ document, d.isLegible Value.isSpelled = true)
    (printable : ∀ d ∈ document, d.isPrintable = true) :
    readStatements? document.text =
      some (document.map fun d => .define (d.asRead.mapConstants Value.reread)) := by
  have each : ∀ d ∈ document, ReadsItem statement EndsDefinition (d.mapConstants Value.reread).tokens
      (.define (d.asRead.mapConstants Value.reread)) := fun d h => {
    read := fun later ends => by
      have legible := d.isLegible_mapConstants (fun _ => Value.isWellNamed_reread) (spelled d h)
      rw [← d.asRead_mapConstants]
      exact statement_tokens legible ends
    some_token := definitionTokens_ne_nil _
    before := endsDefinition_tokens _ }
  have read := someToEnd_flatMap each ⟨ends_nil, by simp⟩ some_definition
  exact read?_of_scan (Document.spells spelled printable).scan_eq read

end Grammar

end Federation
