import Federation.Text.Block
import Mathlib.Data.List.Basic

/-!
What is read back of a text between triple quotes. The quotes inside it are no obstacle, but the lines
that were written are read by the rules for indentation and blank lines.
-/

namespace Federation.Text.Block

/-! ### Quotes -/

section Quotes

variable {line later tail : List Char}

/-- With its quotes escaped a line starts with a quote only if it does so by itself, and then with one
that is no part of three. -/
theorem eq_cons_of_escapeQuotes (h : escapeQuotes line ++ '\n' :: later = '"' :: tail) :
    ∃ rest, line = '"' :: rest ∧ escapeQuotes rest ++ '\n' :: later = tail := by
  fun_cases escapeQuotes line with
  | case1 rest => simp [escapeQuotes] at h
  | case2 c rest single =>
    rw [escapeQuotes, List.cons_append, List.cons.injEq] at h
    · obtain ⟨rfl, h⟩ := h
      exact ⟨rest, rfl, h⟩
    · exact single
  | case3 => simp [escapeQuotes] at h

/-- No three quotes are left in a row. -/
theorem escapeQuotes_ne (line later tail : List Char) :
    escapeQuotes line ++ '\n' :: later ≠ '"' :: '"' :: '"' :: tail := by
  intro h
  obtain ⟨rest₁, rfl, h₁⟩ := eq_cons_of_escapeQuotes h
  obtain ⟨rest₂, rfl, h₂⟩ := eq_cons_of_escapeQuotes h₁
  obtain ⟨rest₃, rfl, -⟩ := eq_cons_of_escapeQuotes h₂
  simp [escapeQuotes] at h

theorem readRaw_cons {c : Char} (plain : isPlain c = true)
    (noEscape : ∀ tail, c = '\\' → later ≠ '"' :: '"' :: '"' :: tail)
    (noEnd : ∀ tail, c = '"' → later ≠ '"' :: '"' :: tail) :
    readRaw (c :: later) = (readRaw later).map fun (raw, rest) => (c :: raw, rest) := by
  rw [readRaw]
  · rw [if_pos plain]
    cases readRaw later <;> rfl
  · exact noEscape
  · exact noEnd

/-- Written characters that are read as raw ones, whatever follows. -/
def IsReadAs (written raw : List Char) : Prop :=
  ∀ later, readRaw (written ++ later) =
    (readRaw later).map fun (following, rest) => (raw ++ following, rest)

theorem IsReadAs.nil : IsReadAs [] [] := by
  intro later
  rw [List.nil_append]
  cases readRaw later <;> rfl

theorem IsReadAs.append {written raw written' raw' : List Char} (first : IsReadAs written raw)
    (second : IsReadAs written' raw') : IsReadAs (written ++ written') (raw ++ raw') := by
  intro later
  rw [List.append_assoc, first, second]
  cases readRaw later <;> simp

theorem IsReadAs.flatMap {α : Type} {written raw : α → List Char} {xs : List α}
    (each : ∀ x ∈ xs, IsReadAs (written x) (raw x)) : IsReadAs (xs.flatMap written) (xs.flatMap raw) := by
  induction xs with
  | nil => exact .nil
  | cons x xs ih =>
    rw [List.forall_mem_cons] at each
    exact each.1.append (ih each.2)

theorem isReadAs_lineFeed : IsReadAs ['\n'] ['\n'] :=
  fun _ => readRaw_cons (by decide) (by simp) (by simp)

/-- A line with escaped quotes is read as the line. Its end is needed, since quotes could follow. -/
theorem isReadAs_escapeQuotes (plain : ∀ c ∈ line, isPlain c = true) :
    IsReadAs (escapeQuotes line ++ ['\n']) (line ++ ['\n']) := by
  intro later
  rw [List.append_assoc, List.singleton_append]
  fun_induction escapeQuotes line with
  | case1 rest ih =>
    rw [List.cons_append, List.cons_append, List.cons_append, List.cons_append, readRaw,
      ih fun c h => plain c (by simp [h])]
    cases readRaw later <;> rfl
  | case2 c rest single ih =>
    have noEnd : ∀ tail, c = '"' → escapeQuotes rest ++ '\n' :: later ≠ '"' :: '"' :: tail := by
      rintro tail rfl h
      obtain ⟨rest₁, rfl, h₁⟩ := eq_cons_of_escapeQuotes h
      obtain ⟨rest₂, rfl, -⟩ := eq_cons_of_escapeQuotes h₁
      exact single rest₂ rfl rfl
    rw [List.forall_mem_cons] at plain
    rw [List.cons_append, readRaw_cons plain.1 (fun tail _ => escapeQuotes_ne rest later tail) noEnd,
      ih plain.2]
    cases readRaw later <;> rfl
  | case3 => exact isReadAs_lineFeed later

end Quotes

/-! ### The layout of a block -/

/-- The characters between the triple quotes of a written block, before indentation is removed. -/
def layout (margin s : String) : List Char :=
  '\n' :: ((lines s.toList).flatMap fun line => margin.toList ++ line ++ ['\n']) ++ margin.toList

/-- What is read back of a text that is written as a block. -/
def readBack (margin s : String) : String := String.ofList (dedent (layout margin s))

theorem mem_of_mem_lines {cs line : List Char} (h : line ∈ lines cs) : ∀ c ∈ line, c ∈ cs := by
  fun_induction lines cs generalizing line with
  | case1 => simp at h
  | case2 rest ih | case3 rest ih =>
    rcases List.mem_cons.1 h with rfl | later
    · simp
    · exact fun c inside => by simp [ih later c inside]
  | case4 c rest _ _ none ih =>
    obtain rfl := List.mem_singleton.1 h
    simp
  | case5 c rest first later _ _ found ih =>
    rw [found] at ih
    rcases List.mem_cons.1 h with rfl | other
    · intro d inside
      rcases List.mem_cons.1 inside with rfl | inside
      · exact List.mem_cons_self
      · exact List.mem_cons_of_mem c (ih List.mem_cons_self d inside)
    · exact fun d inside => List.mem_cons_of_mem c (ih (List.mem_cons_of_mem _ other) d inside)

/-- Blanks that stand in for a margin. -/
def IsMargin (margin : String) : Prop := ∀ c ∈ margin.toList, c = ' '

instance (margin : String) : Decidable (IsMargin margin) :=
  decidable_of_iff (margin.toList.all (· = ' ') = true) (by simp [IsMargin])

theorem isReadAs_blanks {blanks : List Char} (blank : ∀ c ∈ blanks, c = ' ') :
    IsReadAs blanks blanks := by
  induction blanks with
  | nil => exact .nil
  | cons c blanks ih =>
    rw [List.forall_mem_cons] at blank
    obtain ⟨rfl, blank⟩ := blank
    have space : IsReadAs [' '] [' '] := fun _ => readRaw_cons (by decide) (by simp) (by simp)
    exact space.append (ih blank)

/-- A written block is read up to its closing quotes as its layout, with the indentation removed. -/
theorem decode_encode {margin s : String} (blank : IsMargin margin)
    (plain : ∀ c ∈ s.toList, isPlain c = true) (rest : List Char) :
    ∃ body, (encode margin s).toList ++ rest = margin.toList ++ '"' :: '"' :: '"' :: body ∧
      decode body = some (dedent (layout margin s), rest) := by
  have line : ∀ line ∈ lines s.toList, IsReadAs (margin.toList ++ (escapeQuotes line ++ ['\n']))
      (margin.toList ++ (line ++ ['\n'])) := fun line h =>
    (isReadAs_blanks blank).append (isReadAs_escapeQuotes fun c mem => plain c (mem_of_mem_lines h c mem))
  have content := (isReadAs_lineFeed.append (.flatMap line)).append (isReadAs_blanks blank)
  refine ⟨_, ?_, congrArg (Option.map _) (content ('"' :: '"' :: '"' :: rest)) |>.trans ?_⟩
  · simp [encode, String.toList_join, List.flatMap_map]
  · simp [readRaw, layout]

end Federation.Text.Block
