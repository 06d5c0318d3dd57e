import Federation.Proofs.FieldSet.Typing
import Federation.Proofs.Grammar.Nesting
import Federation.Proofs.Grammar.Wrapped

/-!
# Field sets as a whole

A field set is read by putting it between braces. A brace inside it can close the first of these, and then what follows
is read apart and dropped. This is the only way in which something is dropped: a field set that is accepted is one list
of selections as a whole just where its own braces are balanced.
-/

namespace Federation

open Schema
open Grammar (Reader Token closing)

namespace Grammar

/-- The tokens of a text between braces, as far as the closing brace is not part of a comment. -/
theorem scan_wrapped (s : String) :
    Token.scan ("\x7b " ++ s ++ " \x7d").toList = (Token.scan (s.toList ++ closing)).map (.mark '\x7b' :: ·) := by
  have opening : Token.Delimits "\x7b" [.mark '\x7b'] := Token.delimits_mark rfl rfl
  have text : ("\x7b " ++ s ++ " \x7d").toList = "\x7b".toList ++ ' ' :: (s.toList ++ closing) := by
    simp only [String.toList_append, List.append_assoc]
    rfl
  rw [text, opening, Token.scan_ignored rfl]
  rfl

/-- What is read to the end starts with what is read first. -/
theorem Reader.exists_of_someToEnd {α : Type} {item : Reader α} {t : Token} {ts rest : List Token} {xs : List α}
    (read : Reader.someToEnd item (t :: ts) = some (xs, rest)) :
    ∃ x others later, xs = x :: others ∧ item (t :: ts) = some (x, later) := by
  obtain ⟨⟨items, _⟩, readItems, next⟩ := Option.bind_eq_some_iff.1 read
  obtain ⟨⟨_, _⟩, -, same⟩ := Option.bind_eq_some_iff.1 next
  obtain ⟨rfl, -⟩ := Prod.mk.inj (Option.some.inj same)
  obtain ⟨⟨x, later⟩, readFirst, next⟩ := Option.bind_eq_some_iff.1 readItems
  obtain ⟨⟨others, _⟩, -, same⟩ := Option.bind_eq_some_iff.1 next
  obtain ⟨rfl, -⟩ := Prod.mk.inj (Option.some.inj same)
  exact ⟨x, others, later, rfl, readFirst⟩

/-- The selections of a field set are those of the first operation, and this starts with the opening brace. -/
theorem selectionSet_of_readFieldSet? {s : String} {selections : List Selection}
    (read : readFieldSet? s = some selections) :
    ∃ ts rest, Token.scan (s.toList ++ closing) = some ts ∧
      Reader.selectionSet (.mark '\x7b' :: ts) = some (selections, rest) := by
  -- The readers are taken apart from the outside: the document, its first definition and the operation that this is.
  obtain ⟨definitions, readAll, found⟩ := Option.bind_eq_some_iff.1 read
  obtain ⟨wrapped, scanned, next⟩ := Option.bind_eq_some_iff.1 readAll
  rw [scan_wrapped] at scanned
  obtain ⟨ts, inside, rfl⟩ := Option.map_eq_some_iff.1 scanned
  obtain ⟨⟨_, _⟩, readDefinitions, next⟩ := Option.bind_eq_some_iff.1 next
  obtain ⟨-, -, same⟩ := Option.bind_eq_some_iff.1 next
  obtain rfl := Option.some.inj same
  obtain ⟨first, others, later, rfl, readFirst⟩ := Reader.exists_of_someToEnd readDefinitions
  obtain ⟨⟨operation, later'⟩, readOperation, same⟩ := Option.bind_eq_some_iff.1 readFirst
  obtain ⟨rfl, rfl⟩ := Prod.mk.inj (Option.some.inj same)
  obtain rfl : operation = selections := Option.some.inj found
  exact ⟨ts, _, inside, readOperation⟩

end Grammar

namespace FieldSet

variable {types : Registry} {use : FieldSetUse}

/-- Whether tokens between braces are one list of selections, with nothing left over. -/
def IsSelectionList (ts : List Token) (selections : List Selection) : Prop :=
  Reader.selectionSet (.mark '\x7b' :: (ts ++ [.mark '\x7d'])) = some (selections, [])

theorem IsSelectionList.balanced {ts : List Token} {selections : List Selection}
    (whole : IsSelectionList ts selections) : Token.Balanced ts := by
  obtain ⟨-, body, same, balanced⟩ := Reader.exists_of_selectionSet whole
  obtain rfl := List.append_cancel_right (List.cons.inj same).2
  exact balanced

/-- A field set that is accepted is one list of selections as a whole just where its braces are balanced. It is never
empty, and the coordinates of each field that it selects are recorded. -/
theorem accepted_whole_iff {parent fieldSet : String} {selections : List Selection}
    (accepted : check types use parent fieldSet = .ok selections) :
    (∃ ts, Token.scan fieldSet.toList = some ts ∧ (IsSelectionList ts selections ↔ Token.Balanced ts)) ∧
      selections ≠ [] ∧
      ∀ path ∈ listPaths selections, ∃ place, place? types parent path = some place ∧
        path.getLast? = some place.2 ∧ coordinates place.1 place.2 ∈ listCoordinates types parent selections := by
  obtain ⟨read, quiet⟩ := check_eq_ok_iff.mp accepted
  obtain ⟨wrapped, rest, scanned, first⟩ := Grammar.selectionSet_of_readFieldSet? read
  obtain ⟨some_selection, body, same, inside⟩ := Reader.exists_of_selectionSet first
  obtain rfl := (List.cons.inj same).2
  refine ⟨?_, some_selection, fun path selected => ?_⟩
  -- Either the closing brace is a token of its own, or a comment at the end of the field set swallows it.
  · rcases Token.scan_closing fieldSet.toList with brace | swallowed
    · rw [brace] at scanned
      obtain ⟨ts, own, same⟩ := Option.map_eq_some_iff.1 scanned
      refine ⟨ts, own, IsSelectionList.balanced, fun balanced => ?_⟩
      rcases List.eq_nil_or_concat' rest with rfl | ⟨later, last, rfl⟩
      · rw [← same] at first
        exact first
      · -- The brace that closes the selections stands in the field set itself.
        rw [← List.cons_append, ← List.append_assoc] at same
        rw [(List.append_inj' same rfl).1] at balanced
        exact absurd balanced inside.not_closed
    · rw [swallowed] at scanned
      exact ⟨_, scanned, IsSelectionList.balanced, fun balanced => absurd balanced inside.not_closed⟩
  · obtain ⟨place, found, -⟩ := exists_place?_of_faults quiet path selected
    exact ⟨place, found, getLast?_of_place? found, mem_listCoordinates.mpr ⟨path, selected, place, found, rfl⟩⟩

theorem accepted_whole_book : ∃ selections ts,
    check bookTypes .key "Book" "isbn, author \x7b name \x7d" = .ok selections ∧
    Token.scan "isbn, author \x7b name \x7d".toList = some ts ∧ IsSelectionList ts selections ∧
    "Author.name" ∈ listCoordinates bookTypes "Book" selections := by
  have checked : (Grammar.readFieldSet? "isbn, author \x7b name \x7d").any (fun selections =>
      (faults bookTypes .key "Book" selections).isEmpty &&
      decide ("Author.name" ∈ listCoordinates bookTypes "Book" selections)) = true := by
    decide +kernel
  obtain ⟨selections, read, fine⟩ := (Option.any_eq_true _ _).mp checked
  obtain ⟨quiet, recorded⟩ := Bool.and_eq_true_iff.mp fine
  have accepted := check_eq_ok_iff.mpr ⟨read, List.isEmpty_iff.mp quiet⟩
  obtain ⟨⟨ts, scanned, whole⟩, -⟩ := accepted_whole_iff accepted
  have balanced : (Token.scan "isbn, author \x7b name \x7d".toList).any (fun ts => decide (Token.Balanced ts)) =
      true := by
    decide +kernel
  rw [scanned] at balanced
  exact ⟨selections, ts, accepted, scanned, whole.mpr (of_decide_eq_true balanced), of_decide_eq_true recorded⟩

/-- A brace too early ends the field set, and a field after it is neither checked nor recorded. -/
theorem accepted_in_part : ∃ selections, check bookTypes .key "Book" "isbn \x7d \x7b price" = .ok selections ∧
    (∀ ts all, Token.scan "isbn \x7d \x7b price".toList = some ts → ¬ IsSelectionList ts all) ∧
    listCoordinates bookTypes "Book" selections = ["Book.isbn"] ∧
    bookTypes.field? "Book" "price" = none := by
  have checked : (Grammar.readFieldSet? "isbn \x7d \x7b price").any (fun selections =>
      (faults bookTypes .key "Book" selections).isEmpty &&
      decide (listCoordinates bookTypes "Book" selections = ["Book.isbn"])) = true := by
    decide +kernel
  obtain ⟨selections, read, fine⟩ := (Option.any_eq_true _ _).mp checked
  obtain ⟨quiet, recorded⟩ := Bool.and_eq_true_iff.mp fine
  have unbalanced : (Token.scan "isbn \x7d \x7b price".toList).all (fun ts => !decide (Token.Balanced ts)) = true := by
    decide +kernel
  refine ⟨selections, check_eq_ok_iff.mpr ⟨read, List.isEmpty_iff.mp quiet⟩, fun ts all scanned whole => ?_,
    of_decide_eq_true recorded, by rw [← Option.isNone_iff_eq_none]; decide +kernel⟩
  rw [scanned] at unbalanced
  simp [whole.balanced] at unbalanced

end FieldSet

end Federation
