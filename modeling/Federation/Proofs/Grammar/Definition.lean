import Federation.Grammar.Statement
import Federation.Proofs.Grammar.Constant
import Federation.Proofs.Text.Block

/-!
Definitions: the tokens of their written form, which are those of what their constants are read back as. Descriptions
stand before what they describe, except that arguments of fields are written without.
-/

namespace Federation.Schema

open Grammar (Token)
open Grammar.Token (Spells Delimits Separates Trails)

namespace Printer

/-! ### Pieces -/

/-- Whether a description is written as a block string. -/
def isBlock (s : String) : Bool := s.toList.contains '\n' || s.toList.contains '"'

/-- What a reader takes the written form of a description for. -/
def readBack (margin s : String) : String := if isBlock s then Text.Block.readBack margin s else s

/-- Whether the written form of a description can be read at all: no control characters but tabs and
line ends stand in a block string. -/
def isPrintable (s : String) : Bool := !isBlock s || s.toList.all Text.Block.isPlain

def descriptionTokens (margin : String) : Option String → List Token
  | none => []
  | some s => [.string (readBack margin s)]

theorem delimits_margin {margin : String} (blank : Text.Block.IsMargin margin) : Delimits margin [] :=
  Token.delimits_ignored (List.all_eq_true.mpr fun c h => by rw [blank c h]; rfl)

theorem delimits_block {margin s : String} (blank : Text.Block.IsMargin margin)
    (plain : ∀ c ∈ s.toList, Text.Block.isPlain c = true) :
    Delimits (Text.Block.encode margin s) [.string (Text.Block.readBack margin s)] := by
  intro rest
  obtain ⟨body, written, read⟩ := Text.Block.decode_encode blank plain rest
  rw [written, delimits_margin blank]
  have next : Token.next? ('"' :: '"' :: '"' :: body) =
      some (.string (Text.Block.readBack margin s), rest) := by
    rw [Token.next?, read]
    rfl
  rw [Token.scan_of_next? rfl (by decide) next]
  cases Token.scan rest <;> rfl

theorem delimits_description {margin : String} (blank : Text.Block.IsMargin margin)
    {description? : Option String} (printable : ∀ s ∈ description?, isPrintable s = true) :
    Delimits (description margin description?) (descriptionTokens margin description?) := by
  cases description? with
  | none => exact .empty
  | some s =>
    have printable := printable s rfl
    have written : description margin (some s) = if isBlock s then Text.Block.encode margin s ++ "\n"
      else margin ++ Text.Quoted.encode s ++ "\n" := rfl
    rw [written, descriptionTokens, readBack]
    by_cases block : isBlock s
    · have plain : ∀ c ∈ s.toList, Text.Block.isPlain c = true := by
        simpa [isPrintable, block] using printable
      rw [if_pos block, if_pos block]
      exact (delimits_block blank plain).append Token.separates_lineEnd.delimits
    · rw [if_neg block, if_neg block]
      have quoted := (delimits_margin blank).append_spells (Token.spells_quoted s)
      exact quoted.append_separator Token.separates_lineEnd

/-- The brace before an indented block. -/
theorem separates_openBrace : Separates " \x7b\n" [.mark '\x7b'] := by
  have brace : Delimits "\x7b" [.mark '\x7b'] := Token.delimits_mark rfl rfl
  exact (Token.separates_blank.append brace).append Token.separates_lineEnd.delimits

section Lists

variable {α : Type} {text : α → String} {tokens : α → List Token} {xs : List α}

theorem trails_arguments (each : ∀ x ∈ xs, Spells (text x) (tokens x)) :
    Trails (arguments (xs.map text)) (Token.enclosed '(' ')' tokens xs) := by
  cases xs with
  | nil => exact .empty
  | cons x xs =>
    have opening : Separates "(" [.mark '('] := Token.separates_mark rfl rfl
    have closing : Separates ")" [.mark ')'] := Token.separates_mark rfl rfl
    have whole := opening.enclose (Value.spells_commas each) closing
    exact ⟨whole.apart, whole.delimits.spells⟩

theorem trails_block (each : ∀ x ∈ xs, Spells (text x) (tokens x)) :
    Trails (block (xs.map text)) (Token.enclosed '\x7b' '\x7d' tokens xs) := by
  cases xs with
  | nil => exact .empty
  | cons x xs =>
    have closing : Separates "\x7d" [.mark '\x7d'] := Token.separates_mark rfl rfl
    have line (y : α) (h : y ∈ x :: xs) : Delimits (text y ++ "\n") (tokens y) := by
      have ended := (each y h).append_separator Token.separates_lineEnd
      rwa [List.append_nil] at ended
    have lines := Token.delimits_join line
    have whole := separates_openBrace.trails (lines.append closing.delimits).spells
    rw [← String.append_assoc] at whole
    simpa only [block, Token.enclosed, List.map_cons, List.isEmpty_cons, Bool.false_eq_true, if_false,
      List.map_map, Function.comp_def, List.singleton_append] using whole

theorem intercalate_mark_eq (c : Char) (xs : List α) :
    ([.mark c] : List Token).intercalate (xs.map tokens) = Token.separatedBy c tokens xs := by
  induction xs with
  | nil => rfl
  | cons x xs ih =>
    cases xs with
    | nil => simp [Token.separatedBy]
    | cons y ys =>
      rw [List.map_cons, List.map_cons, List.intercalate_cons_cons, ← List.map_cons, ih]
      simp [Token.separatedBy]

theorem spells_separated {c : Char} {separator : String} (separates : Separates separator [.mark c])
    (each : ∀ x ∈ xs, Spells (text x) (tokens x)) :
    Spells (separator.intercalate (xs.map text)) (Token.separatedBy c tokens xs) := by
  have spelled := Token.spells_intercalate separates each
  rwa [intercalate_mark_eq] at spelled

end Lists

end Printer

/-! ### Elements of types -/

namespace InputValueDefinition

/-- An argument, or a field of an input object after its description. -/
def tokens (v : InputValueDefinition) : List Token :=
  .name v.name :: .mark ':' ::
    (v.type.tokens ++ (Value.defaultTokens v.default? ++ Directive.listTokens v.directives))

def fieldTokens (v : InputValueDefinition) : List Token :=
  Printer.descriptionTokens Printer.indent v.description ++ v.tokens

theorem spells {v : InputValueDefinition} (spelled : v.isLegible Value.isSpelled = true) :
    Spells (Printer.inputValue v) (v.mapConstants Value.reread).tokens := by
  simp only [isLegible, Bool.and_eq_true, Option.all_eq_true, List.all_eq_true] at spelled
  obtain ⟨⟨⟨named, type⟩, default⟩, directives⟩ := spelled
  have start := (Token.spells_name named).append_separator Token.separates_colon
  have typed := start.append_spells (TypeRef.spells_text type)
  have whole := (typed.trailed (Value.trails_default default)).trailed (Directive.trails_list directives)
  simpa [Printer.inputValue, tokens, mapConstants] using whole

theorem isMargin_indent : Text.Block.IsMargin Printer.indent := by decide

theorem spells_field {v : InputValueDefinition} (spelled : v.isLegible Value.isSpelled = true)
    (printable : ∀ s ∈ v.description, Printer.isPrintable s = true) :
    Spells (Printer.inputField v) (v.mapConstants Value.reread).fieldTokens := by
  have described := Printer.delimits_description isMargin_indent printable
  have start := described.append (Printer.delimits_margin isMargin_indent)
  have whole := start.append_spells (spells spelled)
  simpa [Printer.inputField, fieldTokens] using whole

end InputValueDefinition

namespace FieldDefinition

def tokens (f : FieldDefinition) : List Token :=
  Printer.descriptionTokens Printer.indent f.description ++
    .name f.name :: (Token.enclosed '(' ')' InputValueDefinition.tokens f.arguments ++
      .mark ':' :: (f.type.tokens ++ Directive.listTokens f.directives))

theorem spells {f : FieldDefinition} (spelled : f.isLegible Value.isSpelled = true)
    (printable : ∀ s ∈ f.description, Printer.isPrintable s = true) :
    Spells (Printer.field f) (f.mapConstants Value.reread).tokens := by
  simp only [isLegible, Bool.and_eq_true, List.all_eq_true] at spelled
  obtain ⟨⟨⟨named, arguments⟩, type⟩, directives⟩ := spelled
  have described := Printer.delimits_description InputValueDefinition.isMargin_indent printable
  have start := described.append (Printer.delimits_margin InputValueDefinition.isMargin_indent)
  have header := (start.append_spells (Token.spells_name named)).trailed
    (Printer.trails_arguments fun a h => InputValueDefinition.spells (arguments a h))
  have typed := (header.append_separator Token.separates_colon).append_spells (TypeRef.spells_text type)
  have whole := typed.trailed (Directive.trails_list directives)
  simpa [Printer.field, tokens, mapConstants, Token.enclosed_map] using whole

end FieldDefinition

namespace EnumValueDefinition

def tokens (v : EnumValueDefinition) : List Token :=
  Printer.descriptionTokens Printer.indent v.description ++ .name v.name :: Directive.listTokens v.directives

theorem spells {v : EnumValueDefinition} (spelled : v.isLegible Value.isSpelled = true)
    (printable : ∀ s ∈ v.description, Printer.isPrintable s = true) :
    Spells (Printer.enumValue v) (v.mapConstants Value.reread).tokens := by
  simp only [isLegible, Bool.and_eq_true, List.all_eq_true] at spelled
  obtain ⟨⟨named, -⟩, directives⟩ := spelled
  have described := Printer.delimits_description InputValueDefinition.isMargin_indent printable
  have start := described.append (Printer.delimits_margin InputValueDefinition.isMargin_indent)
  have whole := (start.append_spells (Token.spells_name named)).trailed (Directive.trails_list directives)
  simpa [Printer.enumValue, tokens, mapConstants] using whole

end EnumValueDefinition

/-! ### Definitions -/

namespace TypeBody

/-- Whether all descriptions inside the type that are written can be read. -/
def isPrintable : TypeBody → Bool
  | enum values => values.all fun v => v.description.all Printer.isPrintable
  | inputObject fields => fields.all fun v => v.description.all Printer.isPrintable
  | interface _ fields | object _ fields => fields.all fun f => f.description.all Printer.isPrintable
  | scalar | union _ => true

def nameTokens (name : String) : List Token := [.name name]

def implementsTokens (interfaces : List String) : List Token :=
  if interfaces.isEmpty then [] else .name "implements" :: Token.separatedBy '&' nameTokens interfaces

def memberTokens (members : List String) : List Token :=
  if members.isEmpty then [] else .mark '=' :: Token.separatedBy '|' nameTokens members

def tokens (applied : List Directive) : TypeBody → List Token
  | enum values => Directive.listTokens applied ++ Token.enclosed '\x7b' '\x7d' EnumValueDefinition.tokens values
  | inputObject fields =>
    Directive.listTokens applied ++ Token.enclosed '\x7b' '\x7d' InputValueDefinition.fieldTokens fields
  | interface interfaces fields | object interfaces fields =>
    implementsTokens interfaces ++ (Directive.listTokens applied ++
      Token.enclosed '\x7b' '\x7d' FieldDefinition.tokens fields)
  | scalar => Directive.listTokens applied
  | union members => Directive.listTokens applied ++ memberTokens members

theorem spells_names {c : Char} {separator : String} (separates : Separates separator [.mark c]) {names : List String}
    (named : ∀ n ∈ names, Token.isName n = true) :
    Spells (separator.intercalate names) (Token.separatedBy c nameTokens names) := by
  have each : ∀ n ∈ names, Spells (id n) (nameTokens n) := fun n h => Token.spells_name (named n h)
  have spelled := Printer.spells_separated separates each
  rwa [List.map_id] at spelled

theorem trails_implements {interfaces : List String} (named : ∀ n ∈ interfaces, Token.isName n = true) :
    Trails (Printer.implementing interfaces) (implementsTokens interfaces) := by
  by_cases none : interfaces.isEmpty
  · rw [Printer.implementing, if_pos none, implementsTokens, if_pos none]
    exact .empty
  · have keyword : Spells "implements" [.name "implements"] := Token.spells_name rfl
    have start : Separates " implements " [.name "implements"] :=
      Token.separates_blank.enclose keyword Token.separates_blank
    have separator : Separates " & " [.mark '&'] := Token.separates_spaced "&" rfl rfl
    have names := spells_names separator named
    rw [Printer.implementing, if_neg none, implementsTokens, if_neg none]
    exact start.trails names

theorem trails_members {members : List String} (named : ∀ n ∈ members, Token.isName n = true) :
    Trails (if members.isEmpty then "" else " = " ++ " | ".intercalate members) (memberTokens members) := by
  by_cases none : members.isEmpty
  · rw [if_pos none, memberTokens, if_pos none]
    exact .empty
  · have start : Separates " = " [.mark '='] := Token.separates_spaced "=" rfl rfl
    have separator : Separates " | " [.mark '|'] := Token.separates_spaced "|" rfl rfl
    have names := spells_names separator named
    rw [if_neg none, memberTokens, if_neg none]
    exact start.trails names

theorem trails {applied : List Directive} (directives : ∀ d ∈ applied, d.isLegible Value.isSpelled = true)
    {b : TypeBody} (spelled : b.isLegible Value.isSpelled = true) (printable : b.isPrintable = true) :
    Trails (Printer.body applied b)
      ((b.mapConstants Value.reread).tokens (applied.map (·.mapConstants Value.reread))) := by
  have applications := Directive.trails_list directives
  cases b with
  | enum values =>
    simp only [isLegible, isPrintable, List.all_eq_true, Option.all_eq_true] at spelled printable
    rw [mapConstants, tokens, Token.enclosed_map]
    exact applications.append (Printer.trails_block fun v h =>
      EnumValueDefinition.spells (spelled v h) (printable v h))
  | inputObject fields =>
    simp only [isLegible, isPrintable, List.all_eq_true, Option.all_eq_true] at spelled printable
    rw [mapConstants, tokens, Token.enclosed_map]
    exact applications.append (Printer.trails_block fun v h =>
      InputValueDefinition.spells_field (spelled v h) (printable v h))
  | interface interfaces fields | object interfaces fields =>
    simp only [isLegible, isPrintable, Bool.and_eq_true, List.all_eq_true, Option.all_eq_true]
      at spelled printable
    have fields := Printer.trails_block fun f h => FieldDefinition.spells (spelled.2 f h) (printable f h)
    have whole := ((trails_implements spelled.1).append applications).append fields
    simpa [tokens, mapConstants, Token.enclosed_map, Printer.body] using whole
  | scalar => exact applications
  | union members =>
    simp only [isLegible, List.all_eq_true] at spelled
    exact applications.append (trails_members spelled)

end TypeBody

namespace TypeDefinition

def tokens (t : TypeDefinition) : List Token :=
  Printer.descriptionTokens "" t.description ++
    .name (Printer.keyword t.kind) :: .name t.name :: t.body.tokens t.directives

theorem isName_keyword (kind : TypeKind) : Token.isName (Printer.keyword kind) = true := by
  cases kind <;> rfl

theorem spells {t : TypeDefinition} (spelled : t.isLegible Value.isSpelled = true)
    (printable : ∀ s ∈ t.description, Printer.isPrintable s = true) (inside : t.body.isPrintable = true) :
    Spells (Printer.typeDefinition t) (t.mapConstants Value.reread).tokens := by
  simp only [isLegible, Bool.and_eq_true, List.all_eq_true] at spelled
  obtain ⟨⟨named, directives⟩, body⟩ := spelled
  have noMargin : Text.Block.IsMargin "" := by decide
  have described := Printer.delimits_description noMargin printable
  have keyword := described.append_spells (Token.spells_name (isName_keyword t.kind))
  have name := (keyword.append_separator Token.separates_blank).append_spells (Token.spells_name named)
  have whole := name.trailed (TypeBody.trails directives body inside)
  simpa [Printer.typeDefinition, tokens, mapConstants, kind] using whole

end TypeDefinition

namespace ArgumentDefinition

/-- An argument of a directive as an argument of a field that no directive is applied to. -/
def asInput (a : ArgumentDefinition) : InputValueDefinition :=
  { name := a.name, description := none, type := a.type, default? := a.default?, directives := [] }

theorem text_asInput (a : ArgumentDefinition) : Printer.inputValue a.asInput = Printer.argumentDefinition a := by
  simp [Printer.inputValue, Printer.argumentDefinition, asInput, Printer.directives]

theorem isLegible_asInput {p : Value → Bool} {a : ArgumentDefinition} (legible : a.isLegible p = true) :
    a.asInput.isLegible p = true := by
  simpa [asInput, InputValueDefinition.isLegible, isLegible] using legible

end ArgumentDefinition

namespace DirectiveDefinition

def locationTokens (l : Location) : List Token := [.name l.text]

def repeatableTokens (isRepeatable : Bool) : List Token :=
  if isRepeatable then [.name "repeatable"] else []

def tokens (d : DirectiveDefinition) : List Token :=
  Printer.descriptionTokens "" d.description ++ .name "directive" :: .mark '@' :: .name d.name ::
    (Token.enclosed '(' ')' (fun a => a.asInput.tokens) d.arguments ++
      (repeatableTokens d.isRepeatable ++
        .name "on" :: Token.separatedBy '|' locationTokens d.locations))

theorem isName_location (l : Location) : Token.isName l.text = true := by
  cases l <;> rfl

theorem trails_repeatable (isRepeatable : Bool) :
    Trails (if isRepeatable then " repeatable" else "") (repeatableTokens isRepeatable) := by
  cases isRepeatable with
  | false => exact .empty
  | true =>
    have keyword : Spells "repeatable" [.name "repeatable"] := Token.spells_name rfl
    exact Token.separates_blank.trails keyword

theorem trails_locations (locations : List Location) :
    Trails (" on " ++ Location.listText locations)
      (.name "on" :: Token.separatedBy '|' locationTokens locations) := by
  have separator : Separates " | " [.mark '|'] := Token.separates_spaced "|" rfl rfl
  have keyword : Spells "on" [.name "on"] := Token.spells_name rfl
  have start : Separates " on " [.name "on"] := Token.separates_blank.enclose keyword Token.separates_blank
  have each : ∀ l ∈ locations, Spells l.text (locationTokens l) := fun l _ => Token.spells_name (isName_location l)
  exact start.trails (Printer.spells_separated separator each)

theorem delimits_keyword : Delimits "directive @" [.name "directive", .mark '@'] := by
  have keyword : Spells "directive" [.name "directive"] := Token.spells_name rfl
  have sign : Delimits "@" [.mark '@'] := Token.delimits_mark rfl rfl
  exact (keyword.append_separator Token.separates_blank).append sign

theorem spells_argument {a : ArgumentDefinition} (spelled : a.isLegible Value.isSpelled = true) :
    Spells (Printer.argumentDefinition a) (a.mapConstants Value.reread).asInput.tokens := by
  rw [← ArgumentDefinition.text_asInput]
  exact InputValueDefinition.spells (ArgumentDefinition.isLegible_asInput spelled)

theorem spells {d : DirectiveDefinition} (spelled : d.isLegible Value.isSpelled = true)
    (printable : ∀ s ∈ d.description, Printer.isPrintable s = true) :
    Spells (Printer.directiveDefinition d) (d.mapConstants Value.reread).tokens := by
  simp only [isLegible, Bool.and_eq_true, List.all_eq_true] at spelled
  obtain ⟨⟨⟨named, arguments⟩, -⟩, -⟩ := spelled
  have noMargin : Text.Block.IsMargin "" := by decide
  have described := Printer.delimits_description noMargin printable
  have name := (described.append delimits_keyword).append_spells (Token.spells_name named)
  have list := Printer.trails_arguments fun a h => spells_argument (arguments a h)
  have places := (trails_repeatable d.isRepeatable).append (trails_locations d.locations)
  have whole := name.trailed (list.append places)
  simpa only [Printer.directiveDefinition, tokens, mapConstants, Token.enclosed_map, String.append_assoc,
    List.append_assoc, List.cons_append, List.nil_append] using whole

end DirectiveDefinition

namespace SchemaDefinition

def rootTokens (root : Operation × String) : List Token := [.name root.1.text, .mark ':', .name root.2]

def tokens (s : SchemaDefinition) : List Token :=
  .name "schema" :: (Directive.listTokens s.directives ++
    .mark '\x7b' :: (s.operationTypes.flatMap rootTokens ++ [.mark '\x7d']))

theorem isName_operation (operation : Operation) : Token.isName operation.text = true := by
  cases operation <;> rfl

theorem spells {s : SchemaDefinition} (spelled : s.isLegible Value.isSpelled = true) :
    Spells (Printer.schemaDefinition s) (s.mapConstants Value.reread).tokens := by
  simp only [isLegible, Bool.and_eq_true, List.all_eq_true] at spelled
  obtain ⟨directives, roots⟩ := spelled
  have indent : Delimits Printer.indent [] := Token.delimits_ignored rfl
  have closing : Delimits "\x7d" [.mark '\x7d'] := Token.delimits_mark rfl rfl
  have keyword : Spells "schema" [.name "schema"] := Token.spells_name rfl
  have line : ∀ root ∈ s.operationTypes,
      Delimits (Printer.indent ++ root.1.text ++ ": " ++ root.2 ++ "\n") (rootTokens root) := by
    intro root h
    have operation := indent.append_spells (Token.spells_name (isName_operation root.1))
    have start := operation.append_separator Token.separates_colon
    have typed := start.append_spells (Token.spells_name (roots root h))
    exact typed.append_separator Token.separates_lineEnd
  have lines := Token.delimits_join line
  have header := (keyword.trailed (Directive.trails_list directives)).append_separator Printer.separates_openBrace
  have whole := ((header.append lines).append closing).spells
  simpa [Printer.schemaDefinition, tokens, mapConstants] using whole

end SchemaDefinition

namespace Definition

def tokens : Definition → List Token
  | directive d => d.tokens
  | schema s => s.tokens
  | type t => t.tokens

/-- Whether all descriptions that are written with the definition can be read. -/
def isPrintable : Definition → Bool
  | directive d => d.description.all Printer.isPrintable
  | schema _ => true
  | type t => t.description.all Printer.isPrintable && t.body.isPrintable

theorem spells {d : Definition} (spelled : d.isLegible Value.isSpelled = true) (printable : d.isPrintable = true) :
    Spells (Printer.definition d) (d.mapConstants Value.reread).tokens := by
  cases d with
  | directive d =>
    simp only [isPrintable, Option.all_eq_true] at printable
    exact DirectiveDefinition.spells spelled printable
  | schema s => exact SchemaDefinition.spells spelled
  | type t =>
    simp only [isPrintable, Bool.and_eq_true, Option.all_eq_true] at printable
    exact TypeDefinition.spells spelled printable.1 printable.2

end Definition

/-- A document is written as the tokens of its definitions, one after the other. -/
theorem Document.spells {document : Document}
    (spelled : ∀ d ∈ document, d.isLegible Value.isSpelled = true)
    (printable : ∀ d ∈ document, d.isPrintable = true) :
    Spells document.text (document.flatMap fun d => (d.mapConstants Value.reread).tokens) := by
  have blank : Separates "\n\n" [] := Token.separates_ignored rfl (List.cons_ne_nil _ _)
  have whole := Token.spells_intercalate blank fun d h =>
    Definition.spells (spelled d h) (printable d h)
  rwa [Token.intercalate_nil_eq_flatMap] at whole

end Federation.Schema
