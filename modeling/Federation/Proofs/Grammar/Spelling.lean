import Federation.Grammar.Token
import Federation.Proofs.Text.Quoted
import Mathlib.Data.List.Basic

/-!
Which tokens a text spells when another text follows it. A text *delimits* if that holds whatever
follows, and *spells* if it holds when what follows stands apart.
-/

namespace Federation.Grammar.Token

/-- Names of the grammar: a letter or an underscore, then letters, digits and underscores. -/
def isName (s : String) : Bool :=
  match s.toList with
  | [] => false
  | c :: cs => isNameStart c && cs.all isNamePart

theorem isName_iff {s : String} :
    isName s = true ↔ ∃ c cs, s.toList = c :: cs ∧ isNameStart c = true ∧ ∀ d ∈ cs, isNamePart d = true := by
  unfold isName
  cases s.toList <;> simp

/-- Whether no token can be continued by the text. -/
def Apart (cs : List Char) : Prop := ∀ c ∈ cs.head?, isNamePart c = false ∧ c ≠ '.' ∧ c ≠ '"'

instance (cs : List Char) : Decidable (Apart cs) :=
  decidable_of_iff (cs.head?.all (fun c => !isNamePart c && c ≠ '.' && c ≠ '"') = true)
    (by simp [Apart, Option.all_eq_true, and_assoc])

@[simp] theorem apart_nil : Apart [] := by simp [Apart]

@[simp] theorem apart_cons {c : Char} {cs : List Char} :
    Apart (c :: cs) ↔ isNamePart c = false ∧ c ≠ '.' ∧ c ≠ '"' := by simp [Apart]

theorem Apart.append {cs ds : List Char} (first : Apart cs) (second : Apart ds) : Apart (cs ++ ds) := by
  cases cs with
  | nil => exact second
  | cons c cs => exact first

/-- What stands apart starts with no character of a class that names include. -/
theorem Apart.head {cs : List Char} (apart : Apart cs) {p : Char → Bool}
    (part : ∀ c, p c = true → isNamePart c = true) : ∀ c ∈ cs.head?, p c = false := by
  intro c first
  have outside := (apart c first).1
  cases holds : p c with
  | false => rfl
  | true => rw [part c holds] at outside; contradiction

/-! ### Spelling -/

/-- The text is read as the tokens where what follows it stands apart. -/
def Spells (s : String) (ts : List Token) : Prop :=
  ∀ rest, Apart rest → scan (s.toList ++ rest) = (scan rest).map (ts ++ ·)

/-- The text is read as the tokens whatever follows it. -/
def Delimits (s : String) (ts : List Token) : Prop :=
  ∀ rest, scan (s.toList ++ rest) = (scan rest).map (ts ++ ·)

variable {s u : String} {ts us : List Token}

theorem Delimits.spells (h : Delimits s ts) : Spells s ts := fun rest _ => h rest

theorem Delimits.empty : Delimits "" [] := by
  intro rest
  simp

theorem Spells.empty : Spells "" [] := Delimits.empty.spells

private theorem map_append_append (found : Option (List Token)) :
    (found.map (us ++ ·)).map (ts ++ ·) = found.map (ts ++ us ++ ·) := by
  cases found <;> simp

theorem Spells.append (first : Spells s ts) (second : Spells u us) (apart : Apart u.toList) :
    Spells (s ++ u) (ts ++ us) := by
  intro rest follows
  rw [String.toList_append, List.append_assoc, first _ (apart.append follows), second _ follows,
    map_append_append]

theorem Delimits.append_spells (first : Delimits s ts) (second : Spells u us) :
    Spells (s ++ u) (ts ++ us) := by
  intro rest follows
  rw [String.toList_append, List.append_assoc, first, second _ follows, map_append_append]

theorem Delimits.append (first : Delimits s ts) (second : Delimits u us) :
    Delimits (s ++ u) (ts ++ us) := by
  intro rest
  rw [String.toList_append, List.append_assoc, first, second, map_append_append]

/-- A text that can be put behind any token, and spells tokens of its own. -/
structure Trails (s : String) (ts : List Token) : Prop where
  apart : Apart s.toList
  spells : Spells s ts

theorem Trails.empty : Trails "" [] := ⟨by decide, .empty⟩

theorem Spells.trailed (first : Spells s ts) (second : Trails u us) : Spells (s ++ u) (ts ++ us) :=
  first.append second.spells second.apart

theorem Trails.append (first : Trails s ts) (second : Trails u us) : Trails (s ++ u) (ts ++ us) where
  apart := by
    rw [String.toList_append]
    exact first.apart.append second.apart
  spells := first.spells.trailed second

/-- A text that ends any token before it, and spells tokens of its own whatever follows. -/
structure Separates (s : String) (ts : List Token) : Prop where
  some_char : s.toList ≠ []
  apart : Apart s.toList
  delimits : Delimits s ts

/-- Only the first character decides whether a text stands apart. -/
theorem Separates.apart_append (h : Separates s ts) (rest : List Char) : Apart (s.toList ++ rest) := by
  have apart := h.apart
  cases chars : s.toList with
  | nil => exact absurd chars h.some_char
  | cons c cs => rwa [chars] at apart

theorem Spells.append_separator (first : Spells s ts) (second : Separates u us) :
    Delimits (s ++ u) (ts ++ us) := by
  intro rest
  rw [String.toList_append, List.append_assoc, first _ (second.apart_append rest), second.delimits,
    map_append_append]

theorem Separates.append (first : Separates s ts) (second : Delimits u us) : Separates (s ++ u) (ts ++ us) where
  some_char := by
    rw [String.toList_append]
    exact List.append_ne_nil_of_left_ne_nil first.some_char _
  apart := by
    rw [String.toList_append]
    exact first.apart_append _
  delimits := first.delimits.append second

theorem Separates.trails (first : Separates s ts) (second : Spells u us) : Trails (s ++ u) (ts ++ us) where
  apart := by
    rw [String.toList_append]
    exact first.apart_append _
  spells := first.delimits.append_spells second

/-- A text between two separators is a separator itself. -/
theorem Separates.enclose {opening closing : String} {before after : List Token}
    (first : Separates opening before) (inside : Spells s ts) (last : Separates closing after) :
    Separates (opening ++ s ++ closing) (before ++ (ts ++ after)) := by
  rw [String.append_assoc]
  exact first.append (inside.append_separator last)

/-- A whole text is read as the tokens that it spells. -/
theorem Spells.scan_eq (h : Spells s ts) : scan s.toList = some ts := by
  have := h [] apart_nil
  rwa [List.append_nil, scan, Option.map_some, List.append_nil] at this

/-! ### Sequences -/

section Sequence

variable {α : Type} {text : α → String} {tokens : α → List Token}

theorem delimits_join {xs : List α} (each : ∀ x ∈ xs, Delimits (text x) (tokens x)) :
    Delimits (String.join (xs.map text)) (xs.flatMap tokens) := by
  intro rest
  rw [String.toList_join]
  induction xs with
  | nil => simp
  | cons x xs ih =>
    rw [List.forall_mem_cons] at each
    rw [List.map_cons, List.flatMap_cons, List.append_assoc, each.1, ih each.2, map_append_append]
    rfl

/-- Texts that stand apart from each other spell their tokens one after the other. -/
theorem trails_join {xs : List α} (each : ∀ x ∈ xs, Trails (text x) (tokens x)) :
    Trails (String.join (xs.map text)) (xs.flatMap tokens) := by
  induction xs with
  | nil => exact .empty
  | cons x xs ih =>
    rw [List.forall_mem_cons] at each
    have joined : String.join ((x :: xs).map text) = text x ++ String.join (xs.map text) := by
      rw [← String.toList_inj, String.toList_append, String.toList_join, String.toList_join]
      rfl
    rw [joined, List.flatMap_cons]
    exact each.1.append (ih each.2)

theorem spells_intercalate {separator : String} {between : List Token} (separates : Separates separator between)
    {xs : List α} (each : ∀ x ∈ xs, Spells (text x) (tokens x)) :
    Spells (separator.intercalate (xs.map text)) (between.intercalate (xs.map tokens)) := by
  induction xs with
  | nil => exact .empty
  | cons x xs ih =>
    rw [List.forall_mem_cons] at each
    cases xs with
    | nil => simpa using each.1
    | cons y ys =>
      have whole := (each.1.append_separator separates).append_spells (ih each.2)
      simpa using whole

theorem intercalate_nil_eq_flatMap (xs : List α) :
    ([] : List Token).intercalate (xs.map tokens) = xs.flatMap tokens := by
  induction xs with
  | nil => rfl
  | cons x xs ih =>
    cases xs with
    | nil => simp
    | cons y ys =>
      rw [List.map_cons] at ih ⊢
      rw [List.map_cons, List.intercalate_cons_cons, ih]
      simp

end Sequence

/-! ### Single tokens -/

theorem scan_of_next? {c : Char} {cs rest : List Char} {t : Token} (kept : isIgnored c = false)
    (noComment : c ≠ '#') (read : next? (c :: cs) = some (t, rest)) :
    scan (c :: cs) = (scan rest).map ([t] ++ ·) := by
  rw [scan, if_neg (by simp [kept]), if_neg noComment]
  split
  · next nothing => rw [read] at nothing; contradiction
  · next t' rest' found =>
    rw [read] at found
    obtain ⟨rfl, rfl⟩ := Prod.mk.inj (Option.some.inj found)
    rfl

theorem scan_ignored {c : Char} (ignored : isIgnored c = true) (rest : List Char) :
    scan (c :: rest) = scan rest := by
  rw [scan, if_pos ignored]

theorem delimits_ignored (blank : s.toList.all isIgnored = true) : Delimits s [] := by
  intro rest
  have drop : ∀ cs : List Char, (∀ c ∈ cs, isIgnored c = true) → scan (cs ++ rest) = scan rest := by
    intro cs all_blank
    induction cs with
    | nil => rfl
    | cons c cs ih =>
      rw [List.cons_append, scan_ignored (all_blank c List.mem_cons_self)]
      exact ih fun d later => all_blank d (List.mem_cons_of_mem c later)
  rw [drop s.toList (List.all_eq_true.mp blank)]
  simp

/-- Marks are no part of anything else. -/
theorem plain_of_isMark {c : Char} (isOne : isMark c = true) :
    isIgnored c = false ∧ isNamePart c = false ∧ c ≠ '#' ∧ c ≠ '.' ∧ c ≠ '"' ∧ c ≠ '-' := by
  have listed : c ∈ "!$&():=@[]\x7b|\x7d".toList := by simpa [isMark] using isOne
  have facts : "!$&():=@[]\x7b|\x7d".toList.all (fun d => !isIgnored d && !isNamePart d && d ≠ '#' && d ≠ '.' &&
      d ≠ '"' && d ≠ '-') = true := by decide
  have fact := List.all_eq_true.mp facts c listed
  simp only [Bool.and_eq_true, Bool.not_eq_true', decide_eq_true_eq, and_assoc] at fact
  exact fact

theorem delimits_mark {c : Char} (isOne : isMark c = true) (single : s.toList = [c]) :
    Delimits s [.mark c] := by
  intro rest
  obtain ⟨kept, -, noComment, noPoint, noQuote, noMinus⟩ := plain_of_isMark isOne
  rw [single, List.singleton_append]
  apply scan_of_next? kept noComment
  rw [next?]
  · rw [if_pos isOne]
  · rintro rest rfl; contradiction
  · rintro rest rfl; contradiction
  · rintro rfl; contradiction
  · rintro rfl; contradiction

theorem isNamePart_of_isNameStart {c : Char} (start : isNameStart c = true) : isNamePart c = true := by
  simp only [isNameStart, isNamePart, Char.isAlphanum, Bool.or_eq_true] at start ⊢
  tauto

/-- The characters that decide what a token is are no part of names. -/
theorem kept_of_isNamePart {c : Char} (part : isNamePart c = true) :
    isIgnored c = false ∧ isMark c = false ∧ c ≠ '#' ∧ c ≠ '.' ∧ c ≠ '"' ∧ c ≠ '-' := by
  refine ⟨Bool.eq_false_iff.2 fun ignored => ?_, Bool.eq_false_iff.2 fun isOne => ?_, ?_, ?_, ?_, ?_⟩
  · simp only [isIgnored, Bool.or_eq_true, decide_eq_true_eq] at ignored
    rcases ignored with (((((rfl | rfl) | rfl) | rfl) | rfl) | rfl) | rfl <;> revert part <;> decide
  · rw [(plain_of_isMark isOne).2.1] at part
    contradiction
  all_goals rintro rfl; revert part; decide

/-- A name can stand before a dot without being mistaken for more. -/
theorem dot_notMem_of_isName {s : String} (named : isName s = true) : '.' ∉ s.toList := by
  obtain ⟨c, cs, chars, start, parts⟩ := isName_iff.1 named
  rw [chars]
  rintro (_ | ⟨_, member⟩)
  · exact absurd start (by decide)
  · exact absurd (parts '.' member) (by decide)

/-- A prefix whose characters all belong to a class is what the class takes, if what follows does
not go on with it. -/
theorem span_of_all {p : Char → Bool} {cs rest : List Char} (all : ∀ c ∈ cs, p c = true)
    (stops : ∀ c ∈ rest.head?, p c = false) :
    (cs ++ rest).takeWhile p = cs ∧ (cs ++ rest).dropWhile p = rest := by
  rw [List.takeWhile_append_of_pos all, List.dropWhile_append_of_pos all]
  cases rest with
  | nil => simp
  | cons c rest =>
    have : p c = false := stops c rfl
    simp [this]

theorem spells_name (isOne : isName s = true) : Spells s [.name s] := by
  intro rest follows
  obtain ⟨c, cs, chars, start, parts⟩ := isName_iff.1 isOne
  obtain ⟨kept, noMark, noComment, noPoint, noQuote, noMinus⟩ :=
    kept_of_isNamePart (isNamePart_of_isNameStart start)
  obtain ⟨taken, left⟩ := span_of_all parts (follows.head fun _ part => part)
  rw [chars, List.cons_append]
  apply scan_of_next? kept noComment
  rw [next?]
  · rw [if_neg (by simp [noMark]), if_pos start, taken, left, ← chars, String.ofList_toList]
  · rintro rest rfl; contradiction
  · rintro rest rfl; contradiction
  · rintro rfl; contradiction
  · rintro rfl; contradiction

theorem apart_of_isMark {c : Char} (isOne : isMark c = true) (cs : List Char) : Apart (c :: cs) := by
  obtain ⟨-, noPart, -, noPoint, noQuote, -⟩ := plain_of_isMark isOne
  exact apart_cons.2 ⟨noPart, noPoint, noQuote⟩

theorem apart_of_isIgnored {c : Char} (ignored : isIgnored c = true) (cs : List Char) : Apart (c :: cs) := by
  refine apart_cons.2 ⟨Bool.eq_false_iff.2 fun part => ?_, ?_, ?_⟩
  · rw [(kept_of_isNamePart part).1] at ignored
    contradiction
  all_goals rintro rfl; revert ignored; decide

/-! ### Separators -/

theorem separates_mark {c : Char} (isOne : isMark c = true) (single : s.toList = [c]) :
    Separates s [.mark c] where
  some_char := by simp [single]
  apart := single ▸ apart_of_isMark isOne []
  delimits := delimits_mark isOne single

theorem separates_ignored (blank : s.toList.all isIgnored = true) (some_char : s.toList ≠ []) :
    Separates s [] where
  some_char := some_char
  apart := by
    cases chars : s.toList with
    | nil => exact apart_nil
    | cons c cs =>
      rw [chars, List.all_cons, Bool.and_eq_true] at blank
      exact apart_of_isIgnored blank.1 cs
  delimits := delimits_ignored blank

theorem separates_blank : Separates " " [] := separates_ignored rfl (List.cons_ne_nil _ _)

theorem separates_lineEnd : Separates "\n" [] := separates_ignored rfl (List.cons_ne_nil _ _)

theorem separates_comma : Separates ", " [] := separates_ignored rfl (List.cons_ne_nil _ _)

theorem separates_colon : Separates ": " [.mark ':'] := by
  have colon : Separates ":" [.mark ':'] := separates_mark rfl rfl
  exact colon.append separates_blank.delimits

/-- A mark between two spaces. -/
theorem separates_spaced (mark : String) {c : Char} (isOne : isMark c = true) (single : mark.toList = [c]) :
    Separates (" " ++ mark ++ " ") [.mark c] :=
  (separates_blank.append (delimits_mark isOne single)).append separates_blank.delimits

/-! ### Quoted strings -/

theorem spells_quoted (text : String) : Spells (Text.Quoted.encode text) [.string text] := by
  intro rest follows
  rw [Text.Quoted.encode_append]
  apply scan_of_next? (by decide) (by decide)
  rw [next?, Text.Quoted.decode_flatMap_escape]
  · simp
  · -- Two quotes at once would be the empty text before a quote, and what follows is none.
    intro rest' same
    by_cases empty : text.toList = []
    · simp only [empty, List.flatMap_nil, List.nil_append, List.cons.injEq, true_and] at same
      exact absurd rfl (follows '"' (by rw [same]; rfl)).2.2
    · exact Text.Quoted.head?_flatMap_escape empty ('"' :: rest) (by rw [same]; rfl)

end Federation.Grammar.Token
