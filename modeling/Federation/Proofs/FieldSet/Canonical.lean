import Federation.Proofs.FieldSet.Whole
import Federation.Proofs.Grammar.Constant
import Federation.Proofs.Grammar.Yield

/-!
# The canonical text of a field set

A field set that is accepted can be read back from its canonical text. So this text says the same as the field set, is
canonical itself, and is shared by those field sets only that select the same.
-/

namespace Federation

open Schema
open Grammar (Reader Token closing)

namespace Schema.Selection

/-- Every name in the selection is one of the grammar. -/
inductive Legible : Selection → Prop
  | fragment : Legible .fragment
  | field {name : String} {hasArguments hasDirectives : Bool} {selections : List Selection}
      (named : Token.isName name = true) (each : ∀ s ∈ selections, Legible s) :
      Legible (.field name hasArguments hasDirectives selections)

/-- A field with a name of the grammar and nothing but such fields below it. -/
inductive Plain : Selection → Prop
  | field {name : String} {selections : List Selection} (named : Token.isName name = true)
      (each : ∀ s ∈ selections, Plain s) : Plain (.field name false false selections)

theorem Legible.plain {types : Registry} {use : FieldSetUse} {parent : String} {s : Selection} (legible : s.Legible)
    (typed : FieldSet.WellTyped types use parent s) : s.Plain := by
  induction typed with
  | leaf =>
    cases legible with
    | field named => exact .field named nofun
  | nested declared allowed some_selection each ih =>
    cases legible with
    | field named legible => exact .field named fun s member => ih s member (legible s member)

end Schema.Selection

/-! ## What is read -/

namespace Grammar.Reader

variable {α : Type}

/-- A reader that takes tokens off the front leaves legible ones. -/
theorem Nests.yields {r : Reader α} {i : Nat} {j : α → Nat} (nests : Nests r i j) : Yields r fun _ => True := by
  intro ts x rest legible read
  obtain ⟨used, rfl, -⟩ := nests ts x rest read
  exact ⟨trivial, fun t later => legible t (List.mem_append_right used later)⟩

theorem yields_boundedSelection (bound : Nat) : Yields (boundedSelection bound) Selection.Legible := by
  induction bound with
  | zero => exact yields_failure
  | succ bound ih =>
    rw [boundedSelection]
    refine yields_token.bind fun t legible => ?_
    have others (selected : String) (named : Token.isName selected = true) : Yields (do
          let arguments ← arguments operationValue
          let directives ← operationDirectives
          let selections ← optionalSomeBetween '\x7b' '\x7d' (boundedSelection bound)
          return .field selected (!arguments.isEmpty) (!directives.isEmpty) selections : Reader Selection)
        Selection.Legible :=
      (nests_arguments (nests_valueWith _) (i := 0)).yields.bind fun _ _ =>
        (nests_operationDirectives (i := 0)).yields.bind fun _ _ =>
          (yields_optionalSomeBetween ih _ _).bind fun _ each => yields_pure (.field named each)
    split
    · -- Of a fragment nothing is kept, so it is enough that each part of it is taken off the front.
      have directives := (nests_operationDirectives (i := 0)).discard.yields
      have closes : Token.nesting? 1 (.mark '\x7d') = some 0 := rfl
      have below := (nests_someUpTo (nests_boundedSelection bound) closes).discard.yields
      refine (nests_name? (i := 0)).yields.bind fun condition _ => ?_
      split
      · exact (nests_name (i := 0)).discard.yields.bind fun _ _ => directives.bind fun _ _ =>
          (yields_expect _).bind fun _ _ => below.bind fun _ _ => yields_pure .fragment
      · exact directives.bind fun _ _ => yields_pure .fragment
      · exact directives.bind fun _ _ => (yields_expect _).bind fun _ _ => below.bind fun _ _ => yields_pure .fragment
    · next first =>
      refine (yields_accept _).bind fun aliased _ => ?_
      cases aliased with
      | true => exact yields_name.bind others
      | false => exact (yields_pure (P := fun s => Token.isName s = true) legible).bind others
    · exact yields_failure

theorem yields_selectionSet : Yields selectionSet fun selections => ∀ s ∈ selections, s.Legible :=
  (yields_expect _).bind fun _ _ => yields_get.bind fun _ _ => yields_someUpTo (yields_boundedSelection _) _

end Grammar.Reader

namespace FieldSet

variable {types : Registry} {use : FieldSetUse} {parent : String}

theorem plain_of_check {fieldSet : String} {selections : List Selection}
    (accepted : check types use parent fieldSet = .ok selections) : ∀ s ∈ selections, s.Plain := by
  obtain ⟨read, quiet⟩ := check_eq_ok_iff.mp accepted
  obtain ⟨ts, rest, scanned, first⟩ := Grammar.selectionSet_of_readFieldSet? read
  have legible : ∀ t ∈ Token.mark '\x7b' :: ts, t.isLegible = true :=
    List.forall_mem_cons.mpr ⟨rfl, Token.isLegible_of_scan scanned⟩
  obtain ⟨named, -⟩ := Reader.yields_selectionSet _ _ _ legible first
  exact fun s member => (named s member).plain ((faults_eq_nil_iff.mp quiet).2 s member)

/-! ## What is written -/

/-- The token that a word of a canonical text is. -/
def wordToken (word : String) : Token :=
  if word = "\x7b" then .mark '\x7b' else if word = "\x7d" then .mark '\x7d' else .name word

/-- The tokens of a selection in a canonical text. -/
def tokens (s : Selection) : List Token := (words s).map wordToken

theorem listWords_eq (selections : List Selection) : listWords selections = selections.flatMap words := by
  induction selections with
  | nil => rfl
  | cons s rest ih => rw [listWords, ih, List.flatMap_cons]

theorem wordToken_of_isName {word : String} (named : Token.isName word = true) : wordToken word = .name word := by
  have noBrace {brace : String} (other : Token.isName brace = false) : word ≠ brace := by
    rintro rfl
    rw [named] at other
    contradiction
  rw [wordToken, if_neg (noBrace (by decide)), if_neg (noBrace (by decide))]

theorem tokens_field {name : String} {hasArguments hasDirectives : Bool} {selections : List Selection}
    (named : Token.isName name = true) :
    tokens (.field name hasArguments hasDirectives selections) =
      .name name :: Token.enclosed '\x7b' '\x7d' tokens selections := by
  cases selections with
  | nil => simp [tokens, words, wordToken_of_isName named, Token.enclosed]
  | cons s rest =>
    have below : (words s ++ listWords rest).map wordToken = (s :: rest).flatMap tokens := by
      rw [listWords_eq, ← List.flatMap_cons, List.map_flatMap]
      rfl
    have written : tokens (.field name hasArguments hasDirectives (s :: rest)) = wordToken name :: .mark '\x7b' ::
        ((words s ++ listWords rest).map wordToken ++ [.mark '\x7d']) := by
      simp [tokens, words, wordToken]
    rw [written, below, wordToken_of_isName named]
    rfl

theorem isName_or_brace {s : Selection} (plain : s.Plain) :
    ∀ word ∈ words s, Token.isName word = true ∨ word = "\x7b" ∨ word = "\x7d" := by
  induction plain with
  | @field name selections named each ih =>
    intro word member
    cases selections with
    | nil => exact .inl (List.mem_singleton.mp member ▸ named)
    | cons s rest =>
      have inside : word ∈ [name, "\x7b"] ++ (s :: rest).flatMap words ++ ["\x7d"] := by
        rwa [words, ← listWords, listWords_eq] at member
      simp only [List.mem_append, List.mem_cons, List.not_mem_nil, or_false] at inside
      rcases inside with ((rfl | rfl) | below) | rfl
      · exact .inl named
      · exact .inr (.inl rfl)
      · obtain ⟨s', selected, own⟩ := List.mem_flatMap.mp below
        exact ih s' selected word own
      · exact .inr (.inr rfl)

/-- The canonical text of plain selections is made of their tokens. -/
theorem spells_canonicalText {selections : List Selection} (plain : ∀ s ∈ selections, s.Plain) :
    Token.Spells (canonicalText selections) (selections.flatMap tokens) := by
  have each : ∀ word ∈ listWords selections, Token.Spells (id word) [wordToken word] := by
    intro word member
    rw [listWords_eq] at member
    obtain ⟨s, selected, own⟩ := List.mem_flatMap.mp member
    rcases isName_or_brace (plain s selected) word own with named | rfl | rfl
    · rw [wordToken_of_isName named]
      exact Token.spells_name named
    · exact (Token.delimits_mark rfl rfl).spells
    · exact (Token.delimits_mark rfl rfl).spells
  have spelled := Token.spells_intercalate Token.separates_blank each
  rw [Token.intercalate_nil_eq_flatMap, List.map_id, ← List.map_eq_flatMap, listWords_eq, List.map_flatMap] at spelled
  rw [canonicalText, listWords_eq]
  exact spelled

/-! ## What is read back -/

/-- Whether a selection ends before the tokens. -/
def Ends (rest : List Token) : Prop := ∀ c ∈ [':', '(', '@', '\x7b'], rest.head? ≠ some (.mark c)

theorem ends_close (rest : List Token) : Ends (.mark '\x7d' :: rest) := by
  intro c member same
  obtain rfl : '\x7d' = c := Token.mark.inj (Option.some.inj same)
  exact absurd member (by decide)

theorem head?_tokens_ne {s : Selection} (plain : s.Plain) (c : Char) : (tokens s).head? ≠ some (.mark c) := by
  obtain ⟨named, -⟩ := plain
  rw [tokens_field named]
  exact nofun

/-- A plain selection is read back from its tokens. -/
theorem readsItem_tokens {s : Selection} (plain : s.Plain) :
    ∀ bound, (tokens s).length ≤ bound → Reader.ReadsItem (Reader.boundedSelection bound) Ends (tokens s) s := by
  induction plain with
  | @field name selections named each ih =>
    intro bound enough
    rw [tokens_field named] at enough ⊢
    refine ⟨fun later ends => ?_, List.cons_ne_nil _ _, fun later _ _ => nofun⟩
    obtain ⟨bound, rfl⟩ : ∃ n, bound = n + 1 :=
      Nat.exists_eq_succ_of_ne_zero (by rintro rfl; simp at enough)
    -- Behind the name comes a brace or what comes behind the selection.
    have behind : ∀ c ∈ [':', '(', '@'], (Token.enclosed '\x7b' '\x7d' tokens selections ++ later).head? ≠
        some (.mark c) := by
      cases selections with
      | nil => exact fun c member => ends c (List.mem_append_left ['\x7b'] member)
      | cons s rest =>
        rintro c member same
        obtain rfl : '\x7b' = c := Token.mark.inj (Option.some.inj same)
        exact absurd member (by decide)
    -- Each level of braces takes more tokens than the bound loses.
    have items : ∀ s ∈ selections, Reader.ReadsItem (Reader.boundedSelection bound) Ends (tokens s) (id s) := by
      intro s member
      refine ih s member bound ?_
      have inside : (tokens s).length ≤ (selections.flatMap tokens).length := Reader.length_le_of_mem member
      rw [Token.enclosed, if_neg (by simpa using List.ne_nil_of_mem member)] at enough
      simp only [List.length_cons, List.length_append] at enough
      omega
    have unclosed : ∀ s ∈ selections, (tokens s).head? ≠ some (.mark '\x7d') := fun s member =>
      head?_tokens_ne (each s member) _
    have below : Reader.optionalSomeBetween '\x7b' '\x7d' (Reader.boundedSelection bound)
        (Token.enclosed '\x7b' '\x7d' tokens selections ++ later) = some (selections.map id, later) :=
      Reader.optionalSomeBetween_enclosed items unclosed (ends_close later) (ends '\x7b' (by decide))
    have arguments : Reader.arguments Reader.operationValue (Token.enclosed '\x7b' '\x7d' tokens selections ++ later) =
        some ([], Token.enclosed '\x7b' '\x7d' tokens selections ++ later) :=
      Reader.bind_of_eq (Reader.accept_of_head? (behind '(' (by decide))) _
    have directives : Reader.operationDirectives (Token.enclosed '\x7b' '\x7d' tokens selections ++ later) =
        some ([], Token.enclosed '\x7b' '\x7d' tokens selections ++ later) :=
      Reader.whileNext_of_head? (behind '@' (by decide))
    rw [List.cons_append, Reader.boundedSelection]
    refine (Reader.bind_of_eq (Reader.token_cons _ _) _).trans ?_
    refine (Reader.bind_of_eq (Reader.accept_of_head? (behind ':' (by decide))) _).trans ?_
    refine (Reader.bind_of_eq (Reader.pure_apply _ _) _).trans ?_
    refine (Reader.bind_of_eq arguments _).trans ?_
    refine (Reader.bind_of_eq directives _).trans ?_
    refine (Reader.bind_of_eq below _).trans ?_
    rw [List.map_id]
    rfl

theorem selectionSet_tokens {selections : List Selection} (plain : ∀ s ∈ selections, s.Plain)
    (some_selection : selections ≠ []) :
    Reader.selectionSet (.mark '\x7b' :: (selections.flatMap tokens ++ [.mark '\x7d'])) = some (selections, []) := by
  refine (Reader.bind_of_eq (Reader.expect_cons _ _) _).trans ?_
  refine (Reader.bind_of_eq (Reader.get_apply _) _).trans ?_
  have items : ∀ s ∈ selections, Reader.ReadsItem
      (Reader.boundedSelection (selections.flatMap tokens ++ [Token.mark '\x7d']).length) Ends (tokens s) (id s) := by
    intro s member
    refine readsItem_tokens (plain s member) _ ?_
    have inside : (tokens s).length ≤ (selections.flatMap tokens).length := Reader.length_le_of_mem member
    rw [List.length_append]
    exact Nat.le_add_right_of_le inside
  have unclosed : ∀ s ∈ selections, (tokens s).head? ≠ some (.mark '\x7d') := fun s member =>
    head?_tokens_ne (plain s member) _
  have read := Reader.someUpTo_flatMap items unclosed (ends_close []) some_selection
  rwa [List.map_id] at read

/-- Plain selections are read back from their canonical text. -/
theorem readFieldSet?_canonicalText {selections : List Selection} (plain : ∀ s ∈ selections, s.Plain)
    (some_selection : selections ≠ []) : Grammar.readFieldSet? (canonicalText selections) = some selections := by
  -- A field set is read between braces that are put around it.
  have scanned : Token.scan ("\x7b " ++ canonicalText selections ++ " \x7d").toList =
      some (.mark '\x7b' :: (selections.flatMap tokens ++ [.mark '\x7d'])) := by
    rw [Grammar.scan_wrapped, spells_canonicalText plain closing (by decide), Token.scan_brace]
    rfl
  have definition : Reader.executableDefinition
      (.mark '\x7b' :: (selections.flatMap tokens ++ [.mark '\x7d'])) = some (some selections, []) := by
    refine (Reader.bind_of_eq (Reader.isNext_apply _ _) _).trans ?_
    exact Reader.bind_of_eq (selectionSet_tokens plain some_selection) _
  have definitions : Reader.someToEnd Reader.executableDefinition
      (.mark '\x7b' :: (selections.flatMap tokens ++ [.mark '\x7d'])) = some ([some selections], []) :=
    Reader.someToEnd_one definition
  have read := Reader.read?_of_scan scanned definitions
  rw [Grammar.readFieldSet?, read]
  rfl

/-! ## Canonical texts -/

/-- A field set that is accepted says the same as its canonical text: it is accepted in the same place with the same
selections, and so with the same names at the top, coordinates, conditions and canonical text. Another field set that is
accepted anywhere has the same canonical text just where its selections are the same. -/
theorem canonicalText_faithful {fieldSet : String} {selections : List Selection}
    (accepted : check types use parent fieldSet = .ok selections) :
    check types use parent (canonicalText selections) = .ok selections ∧
      ∀ (types' : Registry) (use' : FieldSetUse) (parent' other : String) (others : List Selection),
        check types' use' parent' other = .ok others →
          (canonicalText selections = canonicalText others ↔ selections = others) := by
  -- Either canonical text gives its selections when it is read, and no text gives two lists of selections.
  have back {types : Registry} {use : FieldSetUse} {parent fieldSet : String} {selections : List Selection}
      (accepted : check types use parent fieldSet = .ok selections) :
      Grammar.readFieldSet? (canonicalText selections) = some selections :=
    readFieldSet?_canonicalText (plain_of_check accepted) (accepted_whole_iff accepted).2.1
  refine ⟨check_eq_ok_iff.mpr ⟨back accepted, (check_eq_ok_iff.mp accepted).2⟩,
    fun types' use' parent' other others accepted' => ⟨fun same => ?_, fun same => same ▸ rfl⟩⟩
  have read := back accepted
  rw [same, back accepted'] at read
  exact (Option.some.inj read).symm

theorem canonicalText_faithful_book : ∃ selections others,
    check bookTypes .key "Book" "number: isbn, author\x7bname\x7d" = .ok selections ∧
    check bookTypes .requires "Book" "author \x7b name \x7d isbn" = .ok others ∧
    canonicalText selections = "isbn author \x7b name \x7d" ∧
    check bookTypes .key "Book" "isbn author \x7b name \x7d" = .ok selections ∧ selections ≠ others := by
  have checked : (Grammar.readFieldSet? "number: isbn, author\x7bname\x7d").any (fun selections =>
      (Grammar.readFieldSet? "author \x7b name \x7d isbn").any fun others =>
        (faults bookTypes .key "Book" selections).isEmpty && (faults bookTypes .requires "Book" others).isEmpty &&
        decide (canonicalText selections = "isbn author \x7b name \x7d") &&
        decide (canonicalText others = "author \x7b name \x7d isbn")) = true := by
    decide +kernel
  simp only [Option.any_eq_true, Bool.and_eq_true, List.isEmpty_iff, decide_eq_true_eq] at checked
  obtain ⟨selections, read, others, read', ⟨⟨quiet, quiet'⟩, text⟩, text'⟩ := checked
  have accepted := check_eq_ok_iff.mpr ⟨read, quiet⟩
  have accepted' := check_eq_ok_iff.mpr ⟨read', quiet'⟩
  obtain ⟨again, faithful⟩ := canonicalText_faithful accepted
  rw [text] at again
  refine ⟨selections, others, accepted, accepted', text, again, fun same => ?_⟩
  have texts := (faithful _ _ _ _ _ accepted').mpr same
  rw [text, text'] at texts
  exact absurd texts (by decide)

end FieldSet

end Federation
