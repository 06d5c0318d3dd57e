import Federation.Proofs.Text.Block
import Mathlib.Data.List.DropRight

/-!
Which texts survive the rules for indentation and blank lines. A text is written line by line with a
margin. What is read of it loses carriage returns before line ends, the indentation that its lines
have in common, and the blank lines at its ends. So it is read back as it was where it has none of these.
-/

namespace Federation.Text.Block

/-! ### Lines -/

/-- A line without the carriage return that may stand at its end. -/
def chomp (line : List Char) : List Char := if line.getLast? = some '\r' then line.dropLast else line

theorem chomp_isPrefix (line : List Char) : chomp line <+: line := by
  unfold chomp
  split
  · exact List.dropLast_prefix line
  · exact List.prefix_rfl

theorem chomp_eq_self_iff {line : List Char} : chomp line = line ↔ line.getLast? ≠ some '\r' := by
  unfold chomp
  split
  · next ended =>
    refine iff_of_false (fun same => ?_) (not_not.mpr ended)
    obtain ⟨start, rfl⟩ := List.getLast?_eq_some_iff.mp ended
    simp at same
  · next ended => exact iff_of_true rfl ended

theorem chomp_cons_cons (c d : Char) (line : List Char) : chomp (c :: d :: line) = c :: chomp (d :: line) := by
  unfold chomp
  rw [List.getLast?_cons_cons]
  split <;> rfl

theorem mem_of_mem_chomp {line : List Char} {c : Char} (h : c ∈ chomp line) : c ∈ line :=
  (chomp_isPrefix line).subset h

/-- A margin does not hide the end of a line. -/
theorem chomp_append {blanks : List Char} (blank : ∀ c ∈ blanks, c = ' ') (line : List Char) :
    chomp (blanks ++ line) = blanks ++ chomp line := by
  cases line with
  | nil =>
    rw [List.append_nil, show chomp [] = [] from rfl, List.append_nil, chomp_eq_self_iff]
    intro ended
    exact absurd (blank '\r' (List.mem_of_getLast? ended)) (by decide)
  | cons c line =>
    unfold chomp
    rw [List.getLast?_append_of_ne_nil _ (List.cons_ne_nil c line)]
    split
    · exact List.dropLast_append_of_ne_nil (List.cons_ne_nil c line)
    · rfl

theorem lines_line {line : List Char} (single : '\n' ∉ line) (rest : List Char) :
    lines (line ++ '\n' :: rest) = chomp line :: lines rest := by
  induction line with
  | nil => rw [List.nil_append, lines]; rfl
  | cons c line ih =>
    obtain ⟨noFeed, single⟩ := not_or.mp (mt List.mem_cons.mpr single)
    -- A return before the line feed belongs to the line break, so the last character is a case by itself.
    cases line with
    | nil =>
      by_cases isReturn : c = '\r'
      · subst isReturn
        rw [List.singleton_append, lines]
        rfl
      · rw [List.singleton_append, lines, lines]
        · rw [chomp_eq_self_iff.mpr (by simpa using isReturn)]
        · simpa using isReturn
        · exact Ne.symm noFeed
    | cons d line =>
      have first : d ≠ '\n' := fun same => single (same ▸ List.mem_cons_self)
      rw [List.cons_append, lines, ih single, chomp_cons_cons]
      · exact fun _ _ same => first (List.cons.inj same).1
      · exact Ne.symm noFeed

/-- Nothing after the last line end is no line. -/
def lastLine (line : List Char) : List (List Char) := if line.isEmpty then [] else [line]

theorem lines_last {line : List Char} (single : '\n' ∉ line) : lines line = lastLine line := by
  induction line with
  | nil => rfl
  | cons c line ih =>
    obtain ⟨noFeed, single⟩ := not_or.mp (mt List.mem_cons.mpr single)
    rw [lines, ih single]
    · cases line <;> rfl
    · rintro rest - rfl
      exact single List.mem_cons_self
    · exact Ne.symm noFeed

/-- The lines of a text that is put together from lines. -/
theorem lines_flatMap {init : List (List Char)} {last : List Char} (single : ∀ line ∈ init, '\n' ∉ line)
    (single_last : '\n' ∉ last) :
    lines ((init.flatMap fun line => line ++ ['\n']) ++ last) = init.map chomp ++ lastLine last := by
  induction init with
  | nil => exact lines_last single_last
  | cons line init ih =>
    rw [List.forall_mem_cons] at single
    rw [List.flatMap_cons, List.append_assoc, List.append_assoc, List.singleton_append, lines_line single.1,
      ih single.2]
    rfl

/-! ### Indentation -/

theorem dropBytes_suffix (n : Nat) (cs : List Char) : dropBytes n cs <:+ cs := by
  fun_induction dropBytes n cs with
  | case1 => exact List.suffix_rfl
  | case2 => exact List.suffix_rfl
  | case3 n c cs ih => exact ih.trans (List.suffix_cons c cs)

/-- Bytes are taken from every text that has any. -/
theorem dropBytes_ne_self {n : Nat} (some_byte : n ≠ 0) {cs : List Char} (some_char : cs ≠ []) :
    dropBytes n cs ≠ cs := by
  intro same
  obtain ⟨n, rfl⟩ := Nat.exists_eq_succ_of_ne_zero some_byte
  obtain ⟨c, cs, rfl⟩ := List.exists_cons_of_ne_nil some_char
  rw [dropBytes] at same
  have shorter := (dropBytes_suffix (n + 1 - c.utf8Size) cs).length_le
  rw [same, List.length_cons] at shorter
  omega

/-- The bytes of a margin are taken before any other. -/
theorem dropBytes_append (margin line : List Char) (n : Nat) :
    dropBytes ((String.ofList margin).utf8ByteSize + n) (margin ++ line) = dropBytes n line := by
  induction margin with
  | nil => simp
  | cons c margin ih =>
    have size : (String.ofList (c :: margin)).utf8ByteSize =
        c.utf8Size + (String.ofList margin).utf8ByteSize := by
      rw [← List.singleton_append, String.ofList_append, String.utf8ByteSize_append]
      simp
    obtain ⟨k, more⟩ := Nat.exists_eq_succ_of_ne_zero (Nat.ne_of_gt (Char.utf8Size_pos c))
    rw [← ih, size, more, List.cons_append, Nat.succ_add, Nat.succ_add, dropBytes, more]
    congr 1
    omega

section Margin

variable {margin : List Char} (blank : ∀ c ∈ margin, c = ' ')

include blank

theorem isBlank_margin : ∀ c ∈ margin, isBlank c = true := by
  intro c h
  rw [blank c h]
  decide

theorem isBlankLine_append (line : List Char) : isBlankLine (margin ++ line) = isBlankLine line := by
  have margin := List.all_eq_true.mpr (isBlank_margin blank)
  rw [isBlankLine, List.all_append, margin, Bool.true_and]
  rfl

theorem indentation_append (line : List Char) :
    indentation (margin ++ line) = (String.ofList margin).utf8ByteSize + indentation line := by
  rw [indentation, List.takeWhile_append_of_pos (isBlank_margin blank), String.ofList_append,
    String.utf8ByteSize_append]
  rfl

omit blank in
theorem min?_map_add (n : Nat) (xs : List Nat) : (xs.map (n + ·)).min? = xs.min?.map (n + ·) := by
  cases least : xs.min? with
  | none =>
    rw [List.min?_eq_none_iff.mp least]
    rfl
  | some k =>
    obtain ⟨member, lower⟩ := List.min?_eq_some_iff.mp least
    refine List.min?_eq_some_iff.mpr ⟨List.mem_map_of_mem member, ?_⟩
    intro b h
    obtain ⟨x, inside, rfl⟩ := List.mem_map.mp h
    exact Nat.add_le_add_left (lower x inside) n

/-- Where some line is not blank, a margin adds to what all lines have in common. -/
theorem commonIndent_margin {written : List (List Char)} (some_line : ∃ line ∈ written, isBlankLine line = false) :
    commonIndent (written.map (margin ++ ·)) = (String.ofList margin).utf8ByteSize + commonIndent written := by
  -- A margin makes no line blank or not blank, and adds its width to what each line is indented by.
  have filtered : (written.map (margin ++ ·)).filter (fun line => !isBlankLine line) =
      (written.filter fun line => !isBlankLine line).map (margin ++ ·) := by
    rw [List.filter_map]
    congr 1
    exact List.filter_congr fun line _ => by
      rw [Function.comp_apply, isBlankLine_append blank]
  have measured : ((written.filter fun line => !isBlankLine line).map (margin ++ ·)).map indentation =
      ((written.filter fun line => !isBlankLine line).map indentation).map
        ((String.ofList margin).utf8ByteSize + ·) := by
    rw [List.map_map, List.map_map]
    exact List.map_congr_left fun line _ => indentation_append blank line
  have found : ((written.filter fun line => !isBlankLine line).map indentation).min? ≠ none := by
    obtain ⟨line, member, inked⟩ := some_line
    rw [Ne, List.min?_eq_none_iff, List.map_eq_nil_iff]
    exact List.ne_nil_of_mem (List.mem_filter.mpr ⟨member, by rw [inked]; rfl⟩)
  obtain ⟨k, least⟩ := Option.ne_none_iff_exists'.mp found
  rw [commonIndent, filtered, measured, min?_map_add, commonIndent, least]
  rfl

end Margin

/-! ### Texts that survive -/

/-- What is left of the lines of a text after those at both ends that are blank are dropped. -/
def trimLines (written : List (List Char)) : List (List Char) :=
  (written.dropWhile isBlankLine).rdropWhile isBlankLine

theorem trimLines_blank_cons {line : List Char} (blank : isBlankLine line = true) (written : List (List Char)) :
    trimLines (line :: written) = trimLines written := by
  rw [trimLines, List.dropWhile_cons_of_pos blank]
  rfl

theorem trimLines_concat_blank {line : List Char} (blank : isBlankLine line = true) (written : List (List Char)) :
    trimLines (written ++ [line]) = trimLines written := by
  unfold trimLines
  by_cases all : ∀ x ∈ written, isBlankLine x = true
  · rw [List.dropWhile_eq_nil_iff.mpr all, List.dropWhile_eq_nil_iff.mpr]
    simpa [or_imp, forall_and] using ⟨all, blank⟩
  · have some_line : written.dropWhile isBlankLine ≠ [] := mt List.dropWhile_eq_nil_iff.mp all
    rw [List.dropWhile_append, if_neg (by simpa using some_line), List.rdropWhile_concat_pos _ _ _ blank]

theorem trimLines_sublist (written : List (List Char)) : (trimLines written).Sublist written :=
  ( List.rdropWhile_prefix _ _).sublist.trans (List.dropWhile_suffix _).sublist

/-- Nothing is dropped just where both ends are no blank lines. -/
theorem trimLines_eq_self_iff {written : List (List Char)} : trimLines written = written ↔
    (∀ line ∈ written.head?, isBlankLine line = false) ∧ ∀ line ∈ written.getLast?, isBlankLine line = false := by
  have atStart : written.dropWhile isBlankLine = written ↔
      ∀ line ∈ written.head?, isBlankLine line = false := by
    rw [List.dropWhile_eq_self_iff]
    cases written <;> simp
  have atEnd : written.rdropWhile isBlankLine = written ↔
      ∀ line ∈ written.getLast?, isBlankLine line = false := by
    rw [List.rdropWhile_eq_self_iff]
    cases written <;> simp [List.getLast?_eq_some_getLast]
  rw [← atStart, ← atEnd]
  constructor
  · intro same
    -- What is cut at the end cannot make up for what was cut at the beginning, so nothing was cut there.
    have first : written.dropWhile isBlankLine = written :=
      (List.dropWhile_suffix _).eq_of_length_le
        (le_of_eq_of_le (congrArg List.length same).symm ( List.rdropWhile_prefix _ _).length_le)
    exact ⟨first, by rwa [trimLines, first] at same⟩
  · rintro ⟨first, last⟩
    rw [trimLines, first, last]

/-- The lines of a text without the indentation that they have in common and without blank lines at
the ends. -/
def undent (written : List (List Char)) : List (List Char) :=
  trimLines (written.map (dropBytes (commonIndent written)))

theorem isBlankLine_dropBytes {line : List Char} (blank : isBlankLine line = true) (n : Nat) :
    isBlankLine (dropBytes n line) = true := by
  unfold isBlankLine at blank ⊢
  rw [List.all_eq_true] at blank ⊢
  exact fun c h => blank c ((dropBytes_suffix n line).subset h)

theorem undent_concat_blank {line : List Char} (blank : isBlankLine line = true) (written : List (List Char)) :
    undent (written ++ [line]) = undent written := by
  have common : commonIndent (written ++ [line]) = commonIndent written := by
    simp [commonIndent, List.filter_append, blank]
  rw [undent, common, List.map_append, List.map_singleton, trimLines_concat_blank (isBlankLine_dropBytes blank _)]
  rfl

/-- The margin that a text is written with is no part of what is read. -/
theorem undent_margin {margin : List Char} (blank : ∀ c ∈ margin, c = ' ') (written : List (List Char)) :
    undent (written.map (margin ++ ·)) = undent written := by
  by_cases some_line : ∃ line ∈ written, isBlankLine line = false
  · rw [undent, commonIndent_margin blank some_line, List.map_map]
    exact congrArg trimLines (List.map_congr_left fun line _ => dropBytes_append margin line _)
  · -- Nothing is left of blank lines, whatever is taken from each.
    have none {n : Nat} {lines : List (List Char)} (all : ∀ line ∈ lines, isBlankLine line = true) :
        trimLines (lines.map (dropBytes n)) = [] := by
      rw [trimLines, List.dropWhile_eq_nil_iff.mpr (List.forall_mem_map.mpr fun line h =>
        isBlankLine_dropBytes (all line h) n)]
      rfl
    have all : ∀ line ∈ written, isBlankLine line = true := by simpa using some_line
    rw [undent, undent, none all, none (List.forall_mem_map.mpr fun line h => by
      rw [isBlankLine_append blank, all line h])]

theorem dedent_eq {raw first : List Char} {rest : List (List Char)} (found : lines raw = first :: rest)
    (blank : isBlankLine first = true) : dedent raw = ['\n'].intercalate (undent rest) := by
  rw [undent, ← trimLines_blank_cons blank, dedent, found]
  rfl

/-- The lines of a text that are read again after they were written. All but the last one were ended
twice, by the text and by the layout. -/
def rereadLines (init : List (List Char)) (last : List Char) : List (List Char) :=
  init.map (chomp ∘ chomp) ++ [chomp last]

theorem mem_rereadLines {init : List (List Char)} {last line : List Char} (h : line ∈ rereadLines init last) :
    ∃ written ∈ init ++ [last], ∀ c ∈ line, c ∈ written := by
  rcases List.mem_append.mp h with inside | atEnd
  · obtain ⟨written, member, rfl⟩ := List.mem_map.mp inside
    exact ⟨written, List.mem_append_left _ member, fun c h => mem_of_mem_chomp (mem_of_mem_chomp h)⟩
  · obtain rfl := List.mem_singleton.mp atEnd
    exact ⟨last, by simp, fun c h => mem_of_mem_chomp h⟩

/-- What is read between the triple quotes of a written text, as lines. -/
theorem dedent_layout {margin s : String} (blank : IsMargin margin) {init : List (List Char)} {last : List Char}
    (single : ∀ line ∈ init, '\n' ∉ line) (single_last : '\n' ∉ last)
    (text : s.toList = (init.flatMap fun line => line ++ ['\n']) ++ last) :
    dedent (layout margin s) = ['\n'].intercalate (undent (rereadLines init last)) := by
  have noFeed : '\n' ∉ margin.toList := fun h => absurd (blank _ h) (by decide)
  have written : lines s.toList = init.map chomp ++ lastLine last := text ▸ lines_flatMap single single_last
  have plain : ∀ line ∈ lines s.toList, '\n' ∉ line := by
    rw [written]
    refine List.forall_mem_append.mpr ⟨List.forall_mem_map.mpr fun line h => mt mem_of_mem_chomp (single line h), ?_⟩
    unfold lastLine
    split
    · simp
    · simpa using single_last
  have single_margin : ∀ line ∈ [] :: (lines s.toList).map (margin.toList ++ ·), '\n' ∉ line := by
    refine List.forall_mem_cons.mpr ⟨List.not_mem_nil, List.forall_mem_map.mpr fun line h => ?_⟩
    exact mt List.mem_append.mp (not_or.mpr ⟨noFeed, plain line h⟩)
  have laid : layout margin s = (([] :: (lines s.toList).map (margin.toList ++ ·)).flatMap
      fun line => line ++ ['\n']) ++ margin.toList := by
    simp only [layout, List.flatMap_cons, List.flatMap_map, List.nil_append, List.cons_append]
  have again := lines_flatMap single_margin noFeed
  have margined : ((lines s.toList).map (margin.toList ++ ·)).map chomp =
      (init.map (chomp ∘ chomp) ++ (lastLine last).map chomp).map (margin.toList ++ ·) := by
    simp only [written, List.map_append, List.map_map, Function.comp_def, chomp_append blank]
  rw [← laid, List.map_cons, margined, List.cons_append] at again
  have blank_margin : isBlankLine margin.toList = true := List.all_eq_true.mpr (isBlank_margin blank)
  have margin_end (xs : List (List Char)) : undent (xs ++ lastLine margin.toList) = undent xs := by
    unfold lastLine
    split
    · rw [List.append_nil]
    · exact undent_concat_blank blank_margin xs
  rw [dedent_eq again rfl, margin_end, undent_margin blank]
  congr 1
  -- An empty end of the text is no line, and as a blank line it would be dropped.
  unfold rereadLines lastLine
  split
  · next empty =>
    obtain rfl := List.isEmpty_iff.mp empty
    rw [List.map_nil, List.append_nil]
    exact (undent_concat_blank rfl _).symm
  · rfl

/-- Whether a text of several lines is read back as it was written. No line ends in a carriage return,
the first and the last line are not blank, and some line that is not blank has no indentation. -/
def isKept (written : List (List Char)) : Bool :=
  written.all (fun line => line.getLast? ≠ some '\r') &&
    (written.head?.all (!isBlankLine ·) && written.getLast?.all (!isBlankLine ·)) &&
    commonIndent written = 0

theorem isKept_iff {written : List (List Char)} : isKept written = true ↔
    (∀ line ∈ written, chomp line = line) ∧ trimLines written = written ∧ commonIndent written = 0 := by
  simp only [isKept, Bool.and_eq_true, List.all_eq_true, Option.all_eq_true, decide_eq_true_eq, Bool.not_eq_true',
    trimLines_eq_self_iff, chomp_eq_self_iff, Option.mem_def, and_assoc]

theorem rereadLines_eq {init : List (List Char)} {last : List Char}
    (ended : ∀ line ∈ init ++ [last], chomp line = line) : rereadLines init last = init ++ [last] := by
  rw [List.forall_mem_append, List.forall_mem_singleton] at ended
  have twice : init.map (chomp ∘ chomp) = init := by
    refine (List.map_congr_left fun line h => ?_).trans (List.map_id init)
    rw [Function.comp_apply, ended.1 line h, ended.1 line h, id]
  rw [rereadLines, ended.2, twice]

/-- Lines that are left whole when bytes are taken from them had no carriage return at their end. -/
theorem chomp_eq_of_dropBytes {n : Nat} {line : List Char} :
    (dropBytes n (chomp (chomp line)) = line → chomp line = line) ∧
      (dropBytes n (chomp line) = line → chomp line = line) := by
  have once := (chomp_isPrefix line).length_le
  refine ⟨fun same => ?_, fun same => ?_⟩
  · have shorter := (dropBytes_suffix n (chomp (chomp line))).length_le
    have twice := (chomp_isPrefix (chomp line)).length_le
    exact (chomp_isPrefix line).eq_of_length_le (by rw [same] at shorter; omega)
  · have shorter := (dropBytes_suffix n (chomp line)).length_le
    exact (chomp_isPrefix line).eq_of_length_le (by rw [same] at shorter; omega)

theorem forall_mem_of_map_eq {α : Type} {f : α → α} {xs : List α} (same : xs.map f = xs) :
    ∀ x ∈ xs, f x = x :=
  List.map_inj_left.mp (same.trans (List.map_id xs).symm)

theorem undent_rereadLines_eq_iff {init : List (List Char)} {last : List Char} :
    undent (rereadLines init last) = init ++ [last] ↔ isKept (init ++ [last]) = true := by
  rw [isKept_iff]
  constructor
  · intro same
    -- As many lines are left as there were, so none was dropped.
    have whole : (rereadLines init last).map (dropBytes (commonIndent (rereadLines init last))) = init ++ [last] := by
      rw [← same]
      refine ((trimLines_sublist _).eq_of_length ?_).symm
      rw [← undent, same]
      simp [rereadLines]
    have ended : ∀ line ∈ init ++ [last], chomp line = line := by
      have parts := whole
      rw [rereadLines, List.map_append, List.map_map] at parts
      obtain ⟨inside, atEnd⟩ := List.append_inj' parts rfl
      refine List.forall_mem_append.mpr ⟨fun line h => ?_, List.forall_mem_singleton.mpr ?_⟩
      · exact chomp_eq_of_dropBytes.1 (forall_mem_of_map_eq inside line h)
      · exact chomp_eq_of_dropBytes.2 (List.cons.inj atEnd).1
    rw [undent, whole] at same
    rw [rereadLines_eq ended] at whole
    refine ⟨ended, same, ?_⟩
    -- The first line is not blank, and nothing was taken from it.
    obtain ⟨line, first⟩ := Option.isSome_iff_exists.mp (List.isSome_head?.mpr
      (List.append_ne_nil_of_right_ne_nil init (List.cons_ne_nil last [])))
    have inked := (trimLines_eq_self_iff.mp same).1 line first
    have some_char : line ≠ [] := by
      rintro rfl
      contradiction
    by_contra some_byte
    exact dropBytes_ne_self some_byte some_char (forall_mem_of_map_eq whole line (List.mem_of_head? first))
  · rintro ⟨ended, ends, none⟩
    have all : (init ++ [last]).map (dropBytes 0) = init ++ [last] :=
      (List.map_congr_left fun line _ => by rw [dropBytes, id]).trans (List.map_id _)
    rw [rereadLines_eq ended, undent, none, all, ends]

/-- A text with several lines is put together from them as they are split. -/
theorem intercalate_eq_flatMap (init : List (List Char)) (last : List Char) :
    ['\n'].intercalate (init ++ [last]) = (init.flatMap fun line => line ++ ['\n']) ++ last := by
  induction init with
  | nil => simp
  | cons line init ih =>
    obtain ⟨next, rest, more⟩ := List.exists_cons_of_ne_nil
      (List.append_ne_nil_of_right_ne_nil init (List.cons_ne_nil last []))
    rw [List.cons_append, more, List.intercalate_cons_cons, ← more, ih]
    simp

theorem not_mem_of_mem_splitOn {c : Char} {cs line : List Char} (h : line ∈ cs.splitOn c) : c ∉ line := by
  rw [List.splitOn_eq_splitOnP] at h
  induction cs generalizing line with
  | nil =>
    rw [List.splitOnP_nil, List.mem_singleton] at h
    simp [h]
  | cons d cs ih =>
    rw [List.splitOnP_cons_eq_if_modifyHead] at h
    split at h
    · rcases List.mem_cons.mp h with rfl | later
      · exact List.not_mem_nil
      · exact ih later
    · next other =>
      obtain ⟨first, rest, found⟩ := List.exists_cons_of_ne_nil (List.splitOnP_ne_nil (· == c) cs)
      rw [found] at h ih
      rcases List.mem_cons.mp h with rfl | later
      · have noFirst := ih List.mem_cons_self
        exact fun inside => (List.mem_cons.mp inside).elim (fun same => other (beq_iff_eq.mpr same.symm)) noFirst
      · exact ih (List.mem_cons_of_mem first later)

/-- A text that is written as a block comes back as it was just where its lines are kept. -/
theorem readBack_eq_iff {margin s : String} (blank : IsMargin margin) (some_char : s ≠ "") :
    readBack margin s = s ↔ isKept (s.toList.splitOn '\n') = true := by
  obtain ⟨init, last, written⟩ : ∃ init last, s.toList.splitOn '\n' = init ++ [last] := by
    rcases List.eq_nil_or_concat (s.toList.splitOn '\n') with none | ⟨init, last, found⟩
    · exact absurd none (List.splitOn_ne_nil '\n' s.toList)
    · exact ⟨init, last, by rw [found, List.concat_eq_append]⟩
  have single : ∀ line ∈ init ++ [last], '\n' ∉ line := fun line h => not_mem_of_mem_splitOn (written ▸ h)
  have text : ['\n'].intercalate (init ++ [last]) = s.toList := written ▸ List.intercalate_splitOn '\n'
  obtain ⟨single_init, single_last⟩ := List.forall_mem_append.mp single
  rw [List.forall_mem_singleton] at single_last
  -- Reading back undoes the layout line by line, so that the question is one about lines.
  have read := dedent_layout blank single_init single_last (intercalate_eq_flatMap init last ▸ text.symm)
  rw [readBack, read, written, ← undent_rereadLines_eq_iff]
  constructor
  · intro same
    have same : ['\n'].intercalate (undent (rereadLines init last)) = s.toList := by
      rw [← same, String.toList_ofList]
    have plain : ∀ line ∈ undent (rereadLines init last), '\n' ∉ line := by
      intro line h
      obtain ⟨reread, member, rfl⟩ := List.mem_map.mp ((trimLines_sublist _).subset h)
      obtain ⟨original, there, kept⟩ := mem_rereadLines member
      exact fun inside => single original there (kept _ ((dropBytes_suffix _ reread).subset inside))
    have some_line : undent (rereadLines init last) ≠ [] := by
      intro none
      rw [none] at same
      exact some_char (String.toList_eq_nil_iff.mp same.symm)
    have again := List.splitOn_intercalate '\n' plain some_line
    rw [same, written] at again
    exact again.symm
  · intro same
    rw [same, text, String.ofList_toList]

end Federation.Text.Block
