import Federation.Text.Template
import Mathlib.Data.List.DropRight
import Mathlib.Data.List.Infix

/-!
# Which arguments a template refers to

The placeholders of a template are read from the left: each begins at the first pair of opening braces after the one
before it and ends at the first pair of closing braces. What is scanned for references is exactly what such placeholders
hold.
-/

namespace Federation.Text

/-! ## White space around a text -/

/-- A text without white space at its ends, with white space around it. -/
structure Surrounds (cs text : List Char) : Prop where
  split : ∃ lead trail, cs = lead ++ (text ++ trail) ∧ (∀ c ∈ lead, isBlank c = true) ∧ ∀ c ∈ trail, isBlank c = true
  head : ∀ c ∈ text.head?, isBlank c = false
  last : ∀ c ∈ text.getLast?, isBlank c = false

theorem isBlank_head_dropWhile (cs : List Char) : ∀ c ∈ (cs.dropWhile isBlank).head?, isBlank c = false := by
  intro c first
  have stopped := List.head?_dropWhile_not isBlank cs
  rw [Option.mem_def.mp first] at stopped
  exact stopped

theorem dropWhile_isBlank_append {lead text : List Char} (leading : ∀ c ∈ lead, isBlank c = true)
    (head : ∀ c ∈ text.head?, isBlank c = false) : (lead ++ text).dropWhile isBlank = text := by
  rw [List.dropWhile_append_of_pos leading]
  cases text with
  | nil => rfl
  | cons c rest => exact List.dropWhile_cons_of_neg (by simp [head c rfl])

theorem trimChars_eq_iff {cs text : List Char} : trimChars cs = text ↔ Surrounds cs text := by
  constructor
  · rintro rfl
    have trimmed : trimChars cs = (cs.dropWhile isBlank).rdropWhile isBlank := rfl
    refine ⟨⟨cs.takeWhile isBlank, (cs.dropWhile isBlank).rtakeWhile isBlank, ?_, fun c => List.mem_takeWhile_imp,
      fun c => List.mem_rtakeWhile_imp⟩, fun c first => ?_, fun c last => ?_⟩
    · rw [trimmed, List.rdropWhile_append_rtakeWhile, List.takeWhile_append_dropWhile]
    · -- What is cut off at the end leaves the beginning as it is.
      obtain ⟨cut, whole⟩ := List.rdropWhile_prefix isBlank (cs.dropWhile isBlank)
      refine isBlank_head_dropWhile cs c ?_
      rw [← whole, ← trimmed, Option.mem_def, List.head?_append, Option.mem_def.mp first]
      rfl
    · rw [trimChars, List.getLast?_reverse] at last
      exact isBlank_head_dropWhile _ c last
  · rintro ⟨⟨lead, trail, rfl, leading, trailing⟩, head, last⟩
    cases text with
    | nil =>
      have nothing : (lead ++ trail).dropWhile isBlank = [] :=
        List.dropWhile_eq_nil_iff.mpr fun c member => (List.mem_append.mp member).elim (leading c) (trailing c)
      rw [trimChars, List.nil_append, nothing]
      rfl
    | cons first rest =>
      have front : (lead ++ (first :: rest ++ trail)).dropWhile isBlank = first :: rest ++ trail :=
        dropWhile_isBlank_append leading head
      have back : (trail.reverse ++ (first :: rest).reverse).dropWhile isBlank = (first :: rest).reverse :=
        dropWhile_isBlank_append (fun c member => trailing c (List.mem_reverse.mp member)) (by rwa [List.head?_reverse])
      rw [trimChars, front, List.reverse_append, back, List.reverse_reverse]

namespace Template

/-- The first place where a character stands twice in a row, with what stands before and after it. -/
structure FirstPair (c : Char) (cs before after : List Char) : Prop where
  split : cs = before ++ c :: c :: after
  first : ¬ [c, c] <:+: before ++ [c]

variable {c : Char} {cs before after : List Char}

/-- Nothing comes before a pair at the beginning. -/
theorem firstPair_pair_iff {rest : List Char} :
    FirstPair c (c :: c :: rest) before after ↔ before = [] ∧ after = rest := by
  constructor
  · rintro ⟨split, first⟩
    rcases before with _ | ⟨a, _ | ⟨b, before⟩⟩ <;>
      simp only [List.nil_append, List.cons_append, List.cons.injEq, true_and] at split
    · exact ⟨rfl, split.symm⟩
    · obtain ⟨rfl, -⟩ := split
      exact absurd (List.infix_refl _) first
    · obtain ⟨rfl, rfl, -⟩ := split
      exact absurd ⟨[], before ++ [c], rfl⟩ first
  · rintro ⟨rfl, rfl⟩
    exact ⟨rfl, fun inside => absurd inside.length_le (by simp)⟩

theorem firstPair_cons_iff {a b : Char} {rest : List Char} (differ : ¬ (a = c ∧ b = c)) :
    FirstPair c (a :: b :: rest) before after ↔
      ∃ before', FirstPair c (b :: rest) before' after ∧ before = a :: before' := by
  constructor
  · rintro ⟨split, first⟩
    cases before with
    | nil =>
      simp only [List.nil_append, List.cons.injEq] at split
      exact absurd ⟨split.1, split.2.1⟩ differ
    | cons x before =>
      simp only [List.cons_append, List.cons.injEq] at split
      obtain ⟨rfl, split⟩ := split
      exact ⟨before, ⟨split, fun inside => first (List.infix_cons inside)⟩, rfl⟩
  · rintro ⟨before, ⟨split, first⟩, rfl⟩
    refine ⟨congrArg (a :: ·) split, fun inside => ?_⟩
    rcases List.infix_cons_iff.mp inside with ⟨more, starts⟩ | later
    · -- A pair at the beginning would be the two characters there.
      cases before with
      | nil =>
        simp only [List.nil_append, List.cons_append, List.cons.injEq] at split starts
        exact differ ⟨starts.1.symm, split.1⟩
      | cons x before =>
        simp only [List.nil_append, List.cons_append, List.append_eq, List.cons.injEq] at split starts
        exact differ ⟨starts.1.symm, split.1.trans starts.2.1.symm⟩
    · exact first later

theorem splitAtPair_eq_some_iff : splitAtPair c cs = some (before, after) ↔ FirstPair c cs before after := by
  fun_induction splitAtPair c cs generalizing before after with
  | case1 a b rest same =>
    obtain ⟨rfl, rfl⟩ := same
    rw [firstPair_pair_iff, Option.some.injEq, Prod.mk.injEq, eq_comm (a := []), eq_comm (a := rest)]
  | case2 a b rest differ ih =>
    rw [firstPair_cons_iff differ, Option.map_eq_some_iff]
    constructor
    · rintro ⟨⟨before, after⟩, split, ⟨⟩⟩
      exact ⟨before, ih.mp split, rfl⟩
    · rintro ⟨before, first, rfl⟩
      exact ⟨(before, after), ih.mpr first, rfl⟩
  | case3 cs short =>
    refine iff_of_false (fun found => Option.some_ne_none _ found.symm) fun held => ?_
    have split := held.split
    rcases before with _ | ⟨a, _ | ⟨b, before⟩⟩ <;> exact short _ _ _ split

/-- A part of a text between a pair of opening braces and a pair of closing ones, read from the left: braces inside a
placeholder do not open another. -/
inductive Placeholder : (text content : List Char) → Prop
  | first {text before inside content rest : List Char} (opens : FirstPair '\x7b' text before inside)
      (closes : FirstPair '\x7d' inside content rest) : Placeholder text content
  | later {text before inside content rest next : List Char} (opens : FirstPair '\x7b' text before inside)
      (closes : FirstPair '\x7d' inside content rest) (later : Placeholder rest next) : Placeholder text next

theorem placeholder?_eq_some_iff {content rest : List Char} : placeholder? cs = some (content, rest) ↔
    ∃ before inside, FirstPair '\x7b' cs before inside ∧ FirstPair '\x7d' inside content rest := by
  unfold placeholder?
  constructor
  · intro found
    obtain ⟨⟨before, inside⟩, opens, closes⟩ := Option.bind_eq_some_iff.mp found
    exact ⟨before, inside, splitAtPair_eq_some_iff.mp opens, splitAtPair_eq_some_iff.mp closes⟩
  · rintro ⟨before, inside, opens, closes⟩
    exact Option.bind_eq_some_iff.mpr
      ⟨(before, inside), splitAtPair_eq_some_iff.mpr opens, splitAtPair_eq_some_iff.mpr closes⟩

theorem mem_contents_iff {content : List Char} : content ∈ contents cs ↔ Placeholder cs content := by
  -- There is one first placeholder at most, so that both readings of it agree and go on with the same rest.
  fun_induction contents cs with
  | case1 cs none =>
    refine iff_of_false List.not_mem_nil fun held => ?_
    rcases held with ⟨opens, closes⟩ | ⟨opens, closes, -⟩ <;>
      exact nomatch none.symm.trans (placeholder?_eq_some_iff.mpr ⟨_, _, opens, closes⟩)
  | case2 cs found rest here ih =>
    rw [List.mem_cons, ih]
    obtain ⟨before, inside, opens, closes⟩ := placeholder?_eq_some_iff.mp here
    constructor
    · rintro (rfl | later)
      · exact .first opens closes
      · exact .later opens closes later
    · intro held
      rcases held with ⟨opens', closes'⟩ | ⟨opens', closes', later⟩ <;>
        obtain ⟨rfl, rfl⟩ := Prod.mk.inj (Option.some.inj (here.symm.trans
          (placeholder?_eq_some_iff.mpr ⟨_, _, opens', closes'⟩)))
      · exact .inl rfl
      · exact .inr later

/-- Whether a placeholder of a template holds the word for arguments, a dot and a name, with white space around them. -/
def Refers (template name : String) : Prop :=
  ∃ content, Placeholder template.toList content ∧ Surrounds content ("args.".toList ++ name.toList)

theorem argument?_eq_some_iff {content : List Char} {name : String} :
    argument? content = some name ↔ Surrounds content ("args.".toList ++ name.toList) := by
  rw [← trimChars_eq_iff]
  unfold argument?
  split
  · next rest trimmed =>
    have word : "args.".toList ++ name.toList = 'a' :: 'r' :: 'g' :: 's' :: '.' :: name.toList := rfl
    simp only [trimmed, word, Option.some.injEq, List.cons.injEq, true_and]
    exact ⟨fun same => same ▸ String.toList_ofList.symm, fun same => same ▸ String.ofList_toList⟩
  · next other =>
    refine iff_of_false nofun fun trimmed => ?_
    exact other name.toList trimmed

theorem mem_argumentNames_iff {template name : String} : name ∈ argumentNames template ↔ Refers template name := by
  simp only [argumentNames, List.mem_filterMap, mem_contents_iff, argument?_eq_some_iff, Refers]

end Template

end Federation.Text
