import Federation.Proofs.Text.Template

/-!
# Templates put together from pieces

A template is written as literal texts and placeholders, one after the other, and may break off inside a placeholder.
Scanning it finds the placeholders again, in their order and as often as they are written. So the arguments that it
refers to can be read off the pieces.
-/

namespace Federation.Text.Template

/-! ## What is found of one piece -/

theorem splitAtPair_cons_of_ne {c a : Char} (differ : a ≠ c) (rest : List Char) :
    splitAtPair c (a :: rest) = (splitAtPair c rest).map fun (before, after) => (a :: before, after) := by
  cases rest with
  | nil => rfl
  | cons b rest => rw [splitAtPair, if_neg fun same => differ same.1]

theorem placeholder?_cons_of_ne {a : Char} (differ : a ≠ '\x7b') (rest : List Char) :
    placeholder? (a :: rest) = placeholder? rest := by
  unfold placeholder?
  rw [splitAtPair_cons_of_ne differ]
  cases splitAtPair '\x7b' rest <;> rfl

theorem contents_of_none {cs : List Char} (found : placeholder? cs = none) : contents cs = [] := by
  fun_cases contents cs with
  | case1 => rfl
  | case2 content rest here => exact absurd (here.symm.trans found) (Option.some_ne_none _)

theorem contents_of_some {cs content rest : List Char} (found : placeholder? cs = some (content, rest)) :
    contents cs = content :: contents rest := by
  fun_cases contents cs with
  | case1 none => exact absurd (found.symm.trans none) (Option.some_ne_none _)
  | case2 content' rest' here =>
    obtain ⟨rfl, rfl⟩ := Prod.mk.inj (Option.some.inj (here.symm.trans found))
    rfl

/-- The placeholders depend on the first one and on what follows it alone. -/
theorem contents_congr {cs ds : List Char} (same : placeholder? cs = placeholder? ds) : contents cs = contents ds := by
  cases found : placeholder? ds with
  | none => rw [contents_of_none found, contents_of_none (same.trans found)]
  | some here => rw [contents_of_some found, contents_of_some (same.trans found)]

theorem contents_literal_append {text : List Char} (plain : '\x7b' ∉ text) (rest : List Char) :
    contents (text ++ rest) = contents rest := by
  induction text with
  | nil => rfl
  | cons a text ih =>
    obtain ⟨differ, plain⟩ := not_or.mp (mt List.mem_cons.mpr plain)
    rw [List.cons_append, contents_congr (placeholder?_cons_of_ne (Ne.symm differ) _), ih plain]

theorem firstPair_of_notMem {c : Char} {before : List Char} (absent : c ∉ before) (after : List Char) :
    FirstPair c (before ++ c :: c :: after) before after where
  split := rfl
  first inside := by
    -- Only one such character stands before the end of the pair.
    have twice := inside.sublist.count_le c
    rw [List.count_append, List.count_eq_zero.mpr absent] at twice
    simp at twice

theorem contents_placeholder_append {content : List Char} (closed : '\x7d' ∉ content) (rest : List Char) :
    contents ('\x7b' :: '\x7b' :: (content ++ '\x7d' :: '\x7d' :: rest)) = content :: contents rest :=
  contents_of_some (placeholder?_eq_some_iff.mpr
    ⟨[], _, firstPair_pair_iff.mpr ⟨rfl, rfl⟩, firstPair_of_notMem closed rest⟩)

theorem contents_unterminated {tail : List Char} (unterminated : ¬ ['\x7d', '\x7d'] <:+: tail) :
    contents ('\x7b' :: '\x7b' :: tail) = [] := by
  refine contents_of_none (Option.eq_none_iff_forall_not_mem.mpr fun ⟨content, rest⟩ found => ?_)
  obtain ⟨before, inside, opens, closes⟩ := placeholder?_eq_some_iff.mp found
  obtain ⟨rfl, rfl⟩ := firstPair_pair_iff.mp opens
  exact unterminated ⟨content, rest, by simp [closes.split]⟩

/-! ## Pieces -/

/-- A text without braces. -/
structure Braceless where
  chars : List Char
  noOpening : '\x7b' ∉ chars
  noClosing : '\x7d' ∉ chars

inductive Piece
  | literal (text : Braceless)
  | placeholder (content : Braceless)

namespace Piece

def text : Piece → List Char
  | literal text => text.chars
  | placeholder content => '\x7b' :: '\x7b' :: (content.chars ++ ['\x7d', '\x7d'])

def content? : Piece → Option (List Char)
  | literal _ => none
  | placeholder content => some content.chars

end Piece

/-- What stands after the last piece. -/
inductive Ending
  | complete
  /-- A placeholder that is opened and never closed, with all that follows. -/
  | unterminated (tail : List Char) (unclosed : ¬ ['\x7d', '\x7d'] <:+: tail)

def Ending.text : Ending → List Char
  | complete => []
  | unterminated tail _ => '\x7b' :: '\x7b' :: tail

/-- The template that is written as the given pieces. -/
def ofPieces (pieces : List Piece) (ending : Ending) : String :=
  String.ofList (pieces.flatMap Piece.text ++ ending.text)

theorem contents_ending (ending : Ending) : contents ending.text = [] := by
  cases ending with
  | complete => exact contents_of_none rfl
  | unterminated tail unclosed => exact contents_unterminated unclosed

/-- A scan finds the placeholders among the pieces and nothing else. -/
theorem contents_pieces (pieces : List Piece) (ending : Ending) :
    contents (pieces.flatMap Piece.text ++ ending.text) = pieces.filterMap Piece.content? := by
  induction pieces with
  | nil => exact contents_ending ending
  | cons piece pieces ih =>
    rw [List.flatMap_cons, List.append_assoc]
    cases piece with
    | literal text =>
      rw [Piece.text, contents_literal_append text.noOpening, ih]
      rfl
    | placeholder content =>
      have behind (rest : List Char) : (Piece.placeholder content).text ++ rest =
          '\x7b' :: '\x7b' :: (content.chars ++ '\x7d' :: '\x7d' :: rest) := by
        simp [Piece.text]
      rw [behind, contents_placeholder_append content.noClosing, ih]
      rfl

/-! ## The arguments that pieces refer to -/

/-- The names that pieces refer to, in order: one for each placeholder whose content, less the white space around it, is
the word for arguments, a dot and the name. -/
inductive Mentions : List Piece → List String → Prop
  | nil : Mentions [] []
  | literal {text : Braceless} {pieces : List Piece} {names : List String} (rest : Mentions pieces names) :
    Mentions (.literal text :: pieces) names
  | argument {content : Braceless} {name : String} {pieces : List Piece} {names : List String}
    (refers : Surrounds content.chars ("args.".toList ++ name.toList)) (rest : Mentions pieces names) :
    Mentions (.placeholder content :: pieces) (name :: names)
  | other {content : Braceless} {pieces : List Piece} {names : List String}
    (silent : ∀ name : String, ¬ Surrounds content.chars ("args.".toList ++ name.toList))
    (rest : Mentions pieces names) : Mentions (.placeholder content :: pieces) names

theorem argument?_eq_none_iff {content : List Char} :
    argument? content = none ↔ ∀ name : String, ¬ Surrounds content ("args.".toList ++ name.toList) := by
  rw [Option.eq_none_iff_forall_not_mem]
  exact forall_congr' fun name => not_congr argument?_eq_some_iff

theorem mentions_iff {pieces : List Piece} {names : List String} :
    Mentions pieces names ↔ (pieces.filterMap Piece.content?).filterMap argument? = names := by
  constructor
  · intro mentions
    -- Each constructor is one piece of the template, and the list grows just where it refers to an argument.
    induction mentions with
    | nil => rfl
    | literal _ ih => exact ih
    | argument refers _ ih => simp only [List.filterMap_cons, Piece.content?, argument?_eq_some_iff.mpr refers, ih]
    | other silent _ ih => simp only [List.filterMap_cons, Piece.content?, argument?_eq_none_iff.mpr silent, ih]
  · rintro rfl
    induction pieces with
    | nil => exact .nil
    | cons piece pieces ih =>
      cases piece with
      | literal text => exact .literal ih
      | placeholder content =>
        cases found : argument? content.chars with
        | none =>
          simp only [List.filterMap_cons, Piece.content?, found]
          exact .other (argument?_eq_none_iff.mp found) ih
        | some name =>
          simp only [List.filterMap_cons, Piece.content?, found]
          exact .argument (argument?_eq_some_iff.mp found) ih

/-- The arguments that a template refers to are those that its placeholders mention, in order and with repetitions. An
opening without a closing adds none and takes none away. -/
theorem argumentNames_ofPieces_iff (pieces : List Piece) (ending : Ending) (names : List String) :
    argumentNames (ofPieces pieces ending) = names ↔ Mentions pieces names := by
  rw [argumentNames, ofPieces, String.toList_ofList, contents_pieces, mentions_iff]

/-- Other placeholders are passed over, and so is one that is never closed. -/
example : argumentNames
    "orders.\x7b\x7b args.id \x7d\x7d.\x7b\x7bargs.region\x7d\x7d.\x7b\x7b other \x7d\x7d\x7b\x7b args.x" =
      ["id", "region"] := by
  decide +kernel

end Federation.Text.Template
