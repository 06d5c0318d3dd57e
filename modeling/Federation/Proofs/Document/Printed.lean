import Federation.Proofs.Document.Legible
import Federation.Proofs.Grammar.Document
import Federation.Proofs.Grammar.Yield
import Federation.Proofs.Text.Indentation

/-!
# The written document

The document of a valid subgraph is read back from its text: the same definitions in the same order. Descriptions are
the exception. Those of arguments are not written at all, and the others go through the rules for block strings where
they contain a line feed or a quote. Floating-point numbers come back as what their texts are read as.
-/

namespace Federation

open Schema
open Grammar (readStatements?)

/-! ## Descriptions that come back -/

namespace Schema

/-- Whether what a reader takes the written form of a description for is the description. -/
def Printer.isFaithful (s : String) : Bool := !isBlock s || Text.Block.isKept (s.toList.splitOn '\n')

theorem Printer.readBack_eq_iff {margin s : String} (blank : Text.Block.IsMargin margin) :
    readBack margin s = s ↔ isFaithful s = true := by
  by_cases block : isBlock s = true
  · have some_char : s ≠ "" := by
      rintro rfl
      contradiction
    rw [readBack, if_pos block, isFaithful, block]
    exact Text.Block.readBack_eq_iff blank some_char
  · simp [readBack, isFaithful, block]

theorem Printer.map_readBack_eq_iff {margin : String} (blank : Text.Block.IsMargin margin)
    {description? : Option String} : description?.map (readBack margin) = description? ↔
      description?.all isFaithful = true := by
  cases description? with
  | none => simp
  | some s => simpa using readBack_eq_iff blank

theorem Printer.map_eq_self_iff {α : Type} {f : α → α} {p : α → Bool} {xs : List α}
    (each : ∀ x, f x = x ↔ p x = true) : xs.map f = xs ↔ xs.all p = true := by
  rw [List.all_eq_true]
  refine ⟨fun same x h => (each x).mp (Text.Block.forall_mem_of_map_eq same x h), fun all => ?_⟩
  exact map_eq_self fun x h => (each x).mpr (all x h)

def InputValueDefinition.isFaithful (v : InputValueDefinition) : Bool := v.description.all Printer.isFaithful

/-- An argument's description cannot come back, since it is not written. -/
def FieldDefinition.isFaithful (f : FieldDefinition) : Bool :=
  f.description.all Printer.isFaithful && f.arguments.all (·.description.isNone)

def EnumValueDefinition.isFaithful (v : EnumValueDefinition) : Bool := v.description.all Printer.isFaithful

def TypeBody.isFaithful : TypeBody → Bool
  | enum values => values.all EnumValueDefinition.isFaithful
  | inputObject fields => fields.all InputValueDefinition.isFaithful
  | interface _ fields | object _ fields => fields.all FieldDefinition.isFaithful
  | scalar | union _ => true

/-- Whether every description in the definition comes back. -/
def Definition.isFaithful : Definition → Bool
  | directive d => d.description.all Printer.isFaithful
  | schema _ => true
  | type t => t.description.all Printer.isFaithful && t.body.isFaithful

theorem InputValueDefinition.asRead_eq_iff (v : InputValueDefinition) : v.asRead = v ↔ v.isFaithful = true := by
  rw [isFaithful, ← Printer.map_readBack_eq_iff isMargin_indent]
  exact ⟨congrArg description, fun same => congrArg v.withDescription same⟩

theorem EnumValueDefinition.asRead_eq_iff (v : EnumValueDefinition) : v.asRead = v ↔ v.isFaithful = true := by
  rw [isFaithful, ← Printer.map_readBack_eq_iff InputValueDefinition.isMargin_indent]
  exact ⟨congrArg description, fun same => by rw [asRead, same]⟩

theorem FieldDefinition.asRead_eq_iff (f : FieldDefinition) : f.asRead = f ↔ f.isFaithful = true := by
  have undescribed (v : InputValueDefinition) : v.withDescription none = v ↔ v.description.isNone = true := by
    rw [Option.isNone_iff_eq_none]
    exact ⟨fun same => same ▸ rfl, fun none => by rw [← none]; rfl⟩
  rw [isFaithful, Bool.and_eq_true, ← Printer.map_readBack_eq_iff InputValueDefinition.isMargin_indent,
    ← Printer.map_eq_self_iff undescribed]
  exact ⟨fun same => ⟨congrArg description same, congrArg arguments same⟩, fun ⟨own, inside⟩ => by
    rw [asRead, own, inside]⟩

theorem TypeBody.asRead_eq_iff (b : TypeBody) : b.asRead = b ↔ b.isFaithful = true := by
  cases b with
  | enum values =>
    rw [isFaithful, ← Printer.map_eq_self_iff EnumValueDefinition.asRead_eq_iff]
    exact ⟨TypeBody.enum.inj, congrArg TypeBody.enum⟩
  | inputObject fields =>
    rw [isFaithful, ← Printer.map_eq_self_iff InputValueDefinition.asRead_eq_iff]
    exact ⟨TypeBody.inputObject.inj, congrArg TypeBody.inputObject⟩
  | interface interfaces fields =>
    rw [isFaithful, ← Printer.map_eq_self_iff FieldDefinition.asRead_eq_iff]
    exact ⟨fun same => (TypeBody.interface.inj same).2, congrArg (TypeBody.interface interfaces)⟩
  | object interfaces fields =>
    rw [isFaithful, ← Printer.map_eq_self_iff FieldDefinition.asRead_eq_iff]
    exact ⟨fun same => (TypeBody.object.inj same).2, congrArg (TypeBody.object interfaces)⟩
  | scalar => exact iff_of_true rfl rfl
  | union members => exact iff_of_true rfl rfl

theorem Definition.asRead_eq_iff (d : Definition) : d.asRead = d ↔ d.isFaithful = true := by
  have noMargin : Text.Block.IsMargin "" := by decide
  cases d with
  | directive d =>
    rw [isFaithful, ← Printer.map_readBack_eq_iff noMargin]
    exact ⟨fun same => congrArg DirectiveDefinition.description (Definition.directive.inj same),
      fun same => congrArg Definition.directive (by rw [DirectiveDefinition.asRead, same])⟩
  | schema s => exact iff_of_true rfl rfl
  | type t =>
    rw [isFaithful, Bool.and_eq_true, ← Printer.map_readBack_eq_iff noMargin, ← TypeBody.asRead_eq_iff]
    refine ⟨fun same => ?_, fun ⟨own, inside⟩ => congrArg Definition.type (by
      rw [TypeDefinition.asRead, own, inside])⟩
    have same := Definition.type.inj same
    exact ⟨congrArg TypeDefinition.description same, congrArg TypeDefinition.body same⟩

/-- Without descriptions there is nothing to print or to lose. -/
theorem TypeBody.undescribed {b : TypeBody} (none : b.descriptions = []) :
    b.isPrintable = true ∧ b.isFaithful = true := by
  cases b with
  | enum values =>
    simp only [descriptions, List.flatMap_eq_nil_iff, Option.toList_eq_nil_iff] at none
    simp +contextual [isPrintable, isFaithful, EnumValueDefinition.isFaithful, none]
  | inputObject fields =>
    simp only [descriptions, List.flatMap_eq_nil_iff, Option.toList_eq_nil_iff] at none
    simp +contextual [isPrintable, isFaithful, InputValueDefinition.isFaithful, none]
  | interface interfaces fields | object interfaces fields =>
    simp only [descriptions, FieldDefinition.descriptions, List.flatMap_eq_nil_iff, List.append_eq_nil_iff,
      Option.toList_eq_nil_iff] at none
    have undescribed (f) (h : f ∈ fields) : f.isFaithful = true := by
      simpa [FieldDefinition.isFaithful, (none f h).1] using (none f h).2
    simp +contextual [isPrintable, isFaithful, undescribed, none]
  | scalar => exact ⟨rfl, rfl⟩
  | union members => exact ⟨rfl, rfl⟩

theorem Definition.undescribed {d : Definition} (none : d.descriptions = []) :
    d.isPrintable = true ∧ d.isFaithful = true := by
  cases d with
  | directive d =>
    rw [descriptions, Option.toList_eq_nil_iff] at none
    simp [isPrintable, isFaithful, none]
  | schema s => exact ⟨rfl, rfl⟩
  | type t =>
    rw [descriptions, List.append_eq_nil_iff, Option.toList_eq_nil_iff] at none
    simp [isPrintable, isFaithful, none.1, TypeBody.undescribed none.2]

end Schema

/-! ## Documents that come back -/

theorem Schema.Definition.asRead_mapConstants_reread {d : Definition}
    (floatFree : ∀ v ∈ d.constants, v.isFloatFree = true) : d.asRead.mapConstants Value.reread = d.asRead := by
  rw [← d.asRead_mapConstants, d.mapConstants_eq_self fun v h => Value.reread_of_isFloatFree (floatFree v h)]

theorem Assembly.document_ne_nil (a : Assembly) : a.document ≠ [] := by
  simp [document, cataloguedDirectives, Catalogue.base]

section Normal

variable {options : NormalizationOptions} {text : String} {statements : List Statement} {n : NormalSubgraph}

/-- The document of a subgraph that was read from a text is read back from its own, definition by definition. -/
theorem readStatements?_document (read : readStatements? text = some statements)
    (valid : (normalize options statements).result? = some n)
    (writable : ∀ d ∈ n.document, ∀ v ∈ d.constants, v.isWritable = true)
    (printable : ∀ d ∈ n.document, d.isPrintable = true) :
    readStatements? n.document.text =
      some (n.document.map fun d => .define (d.asRead.mapConstants Value.reread)) := by
  obtain ⟨-, rfl⟩ := result_of_normalize valid
  refine Grammar.readStatements?_text (Assembly.document_ne_nil _) (fun d h => ?_) printable
  have wellNamed := Assembly.isLegible_document (Grammar.isLegible_of_readStatements? read) d h
  exact Definition.isLegible_and wellNamed (writable d h)

/-- Without floating-point numbers, all that may come back changed are descriptions. -/
theorem readStatements?_document_of_isFloatFree (read : readStatements? text = some statements)
    (valid : (normalize options statements).result? = some n)
    (floatFree : ∀ d ∈ n.document, ∀ v ∈ d.constants, v.isFloatFree = true)
    (printable : ∀ d ∈ n.document, d.isPrintable = true) :
    readStatements? n.document.text = some (n.document.map fun d => .define d.asRead) := by
  have again := readStatements?_document read valid
    (fun d h v given => Value.isWritable_of_isFloatFree (floatFree d h v given)) printable
  have same : n.document.map (fun d => Statement.define (d.asRead.mapConstants Value.reread)) =
      n.document.map fun d => .define d.asRead :=
    List.map_congr_left fun d h => by rw [d.asRead_mapConstants_reread (floatFree d h)]
  rw [again, same]

/-- A document without descriptions and floating-point numbers is what its text is read as: the same definitions in the
same order, with all that belongs to them. -/
theorem document_reads_back (read : readStatements? text = some statements)
    (valid : (normalize options statements).result? = some n)
    (floatFree : ∀ d ∈ n.document, ∀ v ∈ d.constants, v.isFloatFree = true)
    (undescribed : ∀ d ∈ n.document, d.descriptions = []) :
    readStatements? n.document.text = some (n.document.map .define) := by
  have again := readStatements?_document_of_isFloatFree read valid floatFree
    fun d h => (Definition.undescribed (undescribed d h)).1
  have same : n.document.map (fun d => Statement.define d.asRead) = n.document.map .define :=
    List.map_congr_left fun d h => by
      rw [d.asRead_eq_iff.mpr (Definition.undescribed (undescribed d h)).2]
  rw [again, same]

end Normal

/-- A subgraph with a definition of every kind. -/
def undescribedText : String :=
  "schema\x7bquery:R\x7d directive@d(a:[I!]=[1])on ENUM interface N\x7bx:S\x7d scalar S enum E\x7bA\x7d union U=R
  type R implements N@shareable\x7bx(y:I=\x7be:A\x7d):S!@tag(name:\"t\")\x7d input I\x7be:E\x7d"

theorem document_reads_back_everyKind : ∃ statements n, readStatements? undescribedText = some statements ∧
    (normalize .default statements).result? = some n ∧ n.document.types.length = 8 ∧
    readStatements? n.document.text = some (n.document.map .define) := by
  have checked : (readStatements? undescribedText).any (fun statements =>
      (normalize .default statements).result?.any fun n => decide (n.document.types.length = 8) &&
        n.document.all fun d => d.constants.all Value.isFloatFree && d.descriptions.isEmpty) = true := by
    decide +kernel
  simp only [Option.any_eq_true, Bool.and_eq_true, decide_eq_true_eq, List.all_eq_true, List.isEmpty_iff] at checked
  obtain ⟨statements, read, n, valid, eight, all⟩ := checked
  exact ⟨statements, n, read, valid, eight,
    document_reads_back read valid (fun d h => (all d h).1) fun d h => (all d h).2⟩

section Normal

variable {options : NormalizationOptions} {text : String} {statements : List Statement} {n : NormalSubgraph}

/-- Whatever descriptions a document has, its text is read as the same definitions in the same order if no control
characters stand in its block strings and minus infinity, whose text is no constant, is not among its numbers. A
definition comes back with all its descriptions just where none of them belongs to an argument of a field and none that
is written as a block has blank lines at its ends, a carriage return before a line end, or lines that are all indented.
Floating-point numbers have no part in that: they come back as what their texts are read as, and all other constants as
they are.

Blocks are read by the rules of the program's own reader. A carriage return that stands alone ends no line, and all
Unicode white space counts as such. A reader that ends lines at carriage returns too, or for which only spaces and tabs
are white space, takes some of these blocks for other texts. -/
theorem described_document_reads_back (read : readStatements? text = some statements)
    (valid : (normalize options statements).result? = some n)
    (writable : ∀ d ∈ n.document, ∀ v ∈ d.constants, v.isWritable = true)
    (printable : ∀ d ∈ n.document, d.isPrintable = true) :
    readStatements? n.document.text =
        some (n.document.map fun d => .define (d.asRead.mapConstants Value.reread)) ∧
      (∀ d ∈ n.document, (d.asRead = d ↔ d.isFaithful = true)) ∧
      ∀ d ∈ n.document, (∀ v ∈ d.constants, v.isFloatFree = true) → d.asRead.mapConstants Value.reread = d.asRead :=
  ⟨readStatements?_document read valid writable printable, fun d _ => d.asRead_eq_iff,
    fun d _ floatFree => d.asRead_mapConstants_reread floatFree⟩

end Normal

/-- Descriptions with quotes, blank lines between others and lines with more indentation than the first. -/
def describedText : String :=
  "\"One.\\n  Two \\\"\\\"\\\" quoted\\n\\nThree.\" type Query \x7b \"plain \\\\ \\u00e9\" x(y: Int): Int \x7d
  \"say \\\"hi\\\"\" enum Color \x7b \"\"\"red
    deep red\"\"\" RED \x7d"

theorem described_document_reads_back_faithful : ∃ statements n, readStatements? describedText = some statements ∧
    (normalize .default statements).result? = some n ∧
    n.document.flatMap Definition.descriptions = ["One.\n  Two \"\"\" quoted\n\nThree.", "plain \\ \u00e9",
      "say \"hi\"", "red\ndeep red"] ∧
    readStatements? n.document.text = some (n.document.map fun d => .define d.asRead) ∧
    ∀ d ∈ n.document, d.asRead = d := by
  have checked : (readStatements? describedText).any (fun statements =>
      (normalize .default statements).result?.any fun n =>
        decide (n.document.flatMap Definition.descriptions = ["One.\n  Two \"\"\" quoted\n\nThree.",
          "plain \\ \u00e9", "say \"hi\"", "red\ndeep red"]) &&
        n.document.all fun d => d.constants.all Value.isFloatFree && (d.isPrintable && d.isFaithful)) = true := by
    decide +kernel
  simp only [Option.any_eq_true, Bool.and_eq_true, decide_eq_true_eq, List.all_eq_true] at checked
  obtain ⟨statements, read, n, valid, descriptions, all⟩ := checked
  obtain ⟨again, faithful, kept⟩ := described_document_reads_back read valid
    (fun d h v given => Value.isWritable_of_isFloatFree ((all d h).1 v given)) fun d h => (all d h).2.1
  refine ⟨statements, n, read, valid, descriptions, again.trans ?_, fun d h => (faithful d h).mpr (all d h).2.2⟩
  exact congrArg some (List.map_congr_left fun d h => by rw [kept d h (all d h).1])

/-- A line end at the end of a text does not come back, and an argument loses its description. -/
def changingText : String := "\"a\\n\" type Query \x7b x(\"the first\" y: Int): Int \x7d"

theorem descriptions_change : ∃ statements n, ∃ again : Document, readStatements? changingText = some statements ∧
    (normalize .default statements).result? = some n ∧
    readStatements? n.document.text = some (again.map .define) ∧
    n.document.flatMap Definition.descriptions = ["a\n", "the first"] ∧
    again.flatMap Definition.descriptions = ["a"] := by
  have checked : (readStatements? changingText).any (fun statements =>
      (normalize .default statements).result?.any fun n =>
        decide (n.document.flatMap Definition.descriptions = ["a\n", "the first"]) &&
        decide ((n.document.map Definition.asRead).flatMap Definition.descriptions = ["a"]) &&
        n.document.all fun d => d.constants.all Value.isFloatFree && d.isPrintable) = true := by
    decide +kernel
  simp only [Option.any_eq_true, Bool.and_eq_true, decide_eq_true_eq, List.all_eq_true] at checked
  obtain ⟨statements, read, n, valid, ⟨before, after⟩, all⟩ := checked
  have again := readStatements?_document_of_isFloatFree read valid (fun d h => (all d h).1) fun d h => (all d h).2
  refine ⟨statements, n, n.document.map Definition.asRead, read, valid, ?_, before, after⟩
  rw [again, List.map_map]
  rfl

end Federation
