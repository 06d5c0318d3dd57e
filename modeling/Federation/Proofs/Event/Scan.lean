import Federation.Event.Stream
import Mathlib.Data.List.Induction

/-!
# Fields of a stream configuration, read one after the other

A name is missing until it is given, and what is given once more is told by its absence from the missing names. So what
the loop has collected after any number of fields can be said of these fields at once: which names are not among them,
which stand there again, which are first given something that is no text, and which are not known.
-/

namespace Federation

namespace OrderedSet

variable {α : Type} [DecidableEq α] {s : OrderedSet α} {as : List α} {a : α}

theorem insert_of_mem (member : a ∈ s.toList) : s.insert a = s := dif_pos member

theorem ofList_append_singleton : ofList (as ++ [a]) = (ofList as).insert a := by
  rw [ofList, insertAll, List.foldl_append]
  rfl

theorem repeated_append_singleton :
    s.repeated (as ++ [a]) = s.repeated as ++ if (s.insertAll as).contains a then [a] else [] := by
  induction as generalizing s with
  | nil => rw [List.nil_append, repeated, repeated, repeated, List.append_nil, List.nil_append]; rfl
  | cons b as ih =>
    rw [List.cons_append, repeated, ih, repeated, List.append_assoc]
    rfl

omit [DecidableEq α] in
theorem filter_congr {p q : α → Bool} (same : ∀ a ∈ s.toList, p a = q a) : s.filter p = s.filter q :=
  ext (List.filter_congr same)

theorem filter_insert_of_not_mem {p : α → Bool} (fresh : a ∉ s.toList) :
    (s.insert a).filter p = if p a then (s.filter p).insert a else s.filter p := by
  have absent : a ∉ (s.filter p).toList := mt (List.mem_filter.mp · |>.1) fresh
  split
  · next kept => exact ext (by simp [toList_insert, fresh, kept])
  · next dropped => exact ext (by simp [toList_insert, fresh, dropped])

end OrderedSet

namespace Event.StreamConfiguration

open Schema

/-! ## What fields amount to -/

/-- The value of a name where it is first given. -/
def value? (fields : List (String × Value)) (name : String) : Option Value :=
  (fields.find? (·.1 = name)).map Prod.snd

/-- The text of a name where it is first given. -/
def text? (fields : List (String × Value)) (name : String) : Option String :=
  (value? fields name).bind Value.nonEmptyString?

/-- What is wrong with the fields of an object. -/
def problems (fields : List (String × Value)) : StreamProblems :=
  let names := fields.map Prod.fst
  let known := names.filter (· ∈ fieldNames)
  { missing := (OrderedSet.ofList fieldNames).filter (· ∉ names)
    repeated := .ofList (OrderedSet.empty.repeated known)
    invalid := (OrderedSet.ofList known).filter fun name => (text? fields name).isNone
    unknown := .ofList (names.filter (· ∉ fieldNames)) }

variable {fields : List (String × Value)} {name other : String} {v : Value}

theorem value?_append_singleton : value? (fields ++ [(name, v)]) other =
    (value? fields other).or (if name = other then some v else none) := by
  rw [value?, List.find?_append, Option.map_or, value?, List.find?_singleton]
  by_cases same : name = other <;> simp [same]

theorem value?_eq_none_iff : value? fields name = none ↔ name ∉ fields.map Prod.fst := by
  simp only [value?, Option.map_eq_none_iff, List.find?_eq_none, decide_eq_true_eq, List.mem_map, not_exists, not_and]

theorem text?_of_not_mem (absent : name ∉ fields.map Prod.fst) : text? fields name = none := by
  rw [text?, value?_eq_none_iff.mpr absent, Option.bind_none]

theorem text?_append_of_ne (different : name ≠ other) :
    text? (fields ++ [(name, v)]) other = text? fields other := by
  rw [text?, value?_append_singleton, if_neg different, Option.or_none, text?]

/-- What was given first stays. -/
theorem text?_append_of_mem (given : other ∈ fields.map Prod.fst) :
    text? (fields ++ [(name, v)]) other = text? fields other := by
  rw [text?, value?_append_singleton, Option.or_of_isSome, text?]
  exact Option.ne_none_iff_isSome.mp (mt value?_eq_none_iff.mp (not_not.mpr given))

theorem text?_append_self (fresh : name ∉ fields.map Prod.fst) :
    text? (fields ++ [(name, v)]) name = v.nonEmptyString? := by
  rw [text?, value?_append_singleton, value?_eq_none_iff.mpr fresh, Option.none_or, if_pos rfl, Option.bind_some]

theorem text?_append_again (again : name ∈ fields.map Prod.fst) :
    text? (fields ++ [(name, v)]) other = text? fields other := by
  by_cases same : name = other
  · exact text?_append_of_mem (same ▸ again)
  · exact text?_append_of_ne same

/-! ## One more field -/

/-- A name that is not known is nothing but that. -/
theorem problems_append_unknown (unknown : name ∉ fieldNames) : problems (fields ++ [(name, v)]) =
    { problems fields with unknown := (problems fields).unknown.insert name } := by
  have apart {n : String} (asked : n ∈ fieldNames) : name ≠ n := fun same => unknown (same ▸ asked)
  have known : ((fields ++ [(name, v)]).map Prod.fst).filter (· ∈ fieldNames) =
      (fields.map Prod.fst).filter (· ∈ fieldNames) := by
    simp [List.filter_append, unknown]
  simp only [problems, known, StreamProblems.mk.injEq, true_and]
  -- The other sets ask about known names only, and this is none.
  refine ⟨OrderedSet.filter_congr fun n asked => ?_, OrderedSet.filter_congr fun n asked => ?_, ?_⟩
  · simp [(apart (OrderedSet.mem_ofList.mp asked)).symm]
  · have asked : n ∈ fieldNames := by simpa using (List.mem_filter.mp (OrderedSet.mem_ofList.mp asked)).2
    rw [text?_append_of_ne (apart asked)]
  · rw [← OrderedSet.ofList_append_singleton]
    simp [List.filter_append, unknown]

/-- A name that was given before is repeated, whatever it is given now. -/
theorem problems_append_again (asked : name ∈ fieldNames) (again : name ∈ fields.map Prod.fst) :
    problems (fields ++ [(name, v)]) =
      { problems fields with repeated := (problems fields).repeated.insert name } := by
  have among : name ∈ (OrderedSet.ofList ((fields.map Prod.fst).filter (· ∈ fieldNames))).toList := by
    simpa [asked] using again
  have known : ((fields ++ [(name, v)]).map Prod.fst).filter (· ∈ fieldNames) =
      (fields.map Prod.fst).filter (· ∈ fieldNames) ++ [name] := by
    simp [List.filter_append, asked]
  have seen : (OrderedSet.empty.insertAll ((fields.map Prod.fst).filter (· ∈ fieldNames))).contains name = true :=
    OrderedSet.contains_iff.mpr among
  simp only [problems, known, StreamProblems.mk.injEq, OrderedSet.repeated_append_singleton, seen, if_true,
    OrderedSet.ofList_append_singleton, OrderedSet.insert_of_mem among, true_and]
  refine ⟨OrderedSet.filter_congr fun n _ => ?_, OrderedSet.filter_congr fun n inside => ?_, ?_⟩
  · by_cases same : n = name
    · simpa [same] using again
    · simp [same]
  · rw [text?_append_again again]
  · simp [List.filter_append, asked]

/-- A name that is given for the first time is missing no more, and wrong if it is given no text. -/
theorem problems_append_first (asked : name ∈ fieldNames) (fresh : name ∉ fields.map Prod.fst) :
    problems (fields ++ [(name, v)]) =
      { problems fields with
        missing := (problems fields).missing.filter (· ≠ name)
        invalid := if v.nonEmptyString? = none then (problems fields).invalid.insert name
          else (problems fields).invalid } := by
  have unseen : name ∉ (OrderedSet.ofList ((fields.map Prod.fst).filter (· ∈ fieldNames))).toList := by
    simpa [asked] using fresh
  have known : ((fields ++ [(name, v)]).map Prod.fst).filter (· ∈ fieldNames) =
      (fields.map Prod.fst).filter (· ∈ fieldNames) ++ [name] := by
    simp [List.filter_append, asked]
  have first : (OrderedSet.empty.insertAll ((fields.map Prod.fst).filter (· ∈ fieldNames))).contains name = false :=
    Bool.eq_false_iff.mpr (mt OrderedSet.contains_iff.mp unseen)
  -- The texts of the names before are those of their first values, which stay.
  have kept : (OrderedSet.ofList ((fields.map Prod.fst).filter (· ∈ fieldNames))).filter
      (fun n => (text? (fields ++ [(name, v)]) n).isNone) = (problems fields).invalid :=
    OrderedSet.filter_congr fun n inside => by
      rw [text?_append_of_mem (List.mem_filter.mp (OrderedSet.mem_ofList.mp inside)).1]
  simp only [problems, known, StreamProblems.mk.injEq, OrderedSet.repeated_append_singleton, first,
    OrderedSet.ofList_append_singleton, OrderedSet.filter_insert_of_not_mem unseen, text?_append_self fresh, kept]
  refine ⟨OrderedSet.ext ?_, ?_, ?_, ?_⟩
  · rw [OrderedSet.toList_filter, OrderedSet.toList_filter, OrderedSet.toList_filter, List.filter_filter]
    refine List.filter_congr fun n _ => ?_
    rw [List.map_append, ← Bool.decide_and]
    exact decide_eq_decide.mpr (by simp [and_comm])
  · simp
  · simp
  · simp [List.filter_append, asked]

/-- What was made of these fields. -/
structure Progress.Reads (fields : List (String × Value)) (p : Progress) : Prop where
  problems : p.problems = StreamConfiguration.problems fields
  consumerName? : p.consumerName? = text? fields Vocabulary.consumerName
  streamName? : p.streamName? = text? fields Vocabulary.streamName

variable {p : Progress}

theorem Progress.reads_start : start.Reads [] := ⟨by decide, rfl, rfl⟩

/-- What is missing is what was not given, so it tells what is given again. -/
theorem Progress.Reads.contains_missing_iff (reads : p.Reads fields) (asked : name ∈ fieldNames) :
    p.problems.missing.contains name = true ↔ name ∉ fields.map Prod.fst := by
  have listed : name ∈ (OrderedSet.ofList fieldNames).toList := OrderedSet.mem_ofList.mpr asked
  rw [OrderedSet.contains_iff, reads.problems]
  simp only [StreamConfiguration.problems, OrderedSet.toList_filter, List.mem_filter, listed, true_and,
    decide_eq_true_eq]

/-- A name that is given for the first time keeps its text, if it is one. -/
theorem Progress.Reads.accept (reads : p.Reads fields) (asked : name ∈ fieldNames)
    (fresh : name ∉ fields.map Prod.fst) (v : Value) :
    ({ p with problems.missing := p.problems.missing.filter (· ≠ name) }.accept name v).Reads
      (fields ++ [(name, v)]) := by
  have own : text? (fields ++ [(name, v)]) name = v.nonEmptyString? := text?_append_self fresh
  have others {n : String} (different : name ≠ n) : text? (fields ++ [(name, v)]) n = text? fields n :=
    text?_append_of_ne different
  have problems := problems_append_first (v := v) asked fresh
  rw [← reads.problems] at problems
  unfold Progress.accept
  cases read : v.nonEmptyString? with
  | none =>
    rw [read] at own problems
    -- A text that was not there before is not there now.
    have still (n : String) : text? fields n = text? (fields ++ [(name, v)]) n := by
      by_cases same : name = n
      · rw [← same, own, text?_of_not_mem fresh]
      · exact (others same).symm
    exact ⟨problems.symm, reads.consumerName?.trans (still _), reads.streamName?.trans (still _)⟩
  | some text =>
    rw [read] at own problems
    have either : name = Vocabulary.consumerName ∨ name = Vocabulary.streamName := by simpa [fieldNames] using asked
    rcases either with rfl | rfl
    · exact ⟨problems.symm, own.symm, reads.streamName?.trans (others (by decide)).symm⟩
    · exact ⟨problems.symm, reads.consumerName?.trans (others (by decide)).symm, own.symm⟩

/-- One more field is seen in every set as it is among all fields up to it. -/
theorem Progress.Reads.step (reads : p.Reads fields) (name : String) (v : Value) :
    (p.step (name, v)).Reads (fields ++ [(name, v)]) := by
  unfold Progress.step
  dsimp only
  by_cases asked : name ∈ fieldNames
  · rw [if_neg (not_not.mpr asked)]
    -- The loop tells what was given by what is missing no more.
    by_cases again : name ∈ fields.map Prod.fst
    · have given : p.problems.missing.contains name = false :=
        Bool.eq_false_iff.mpr (mt (reads.contains_missing_iff asked).mp (not_not.mpr again))
      rw [given, Bool.not_false, if_pos rfl]
      refine ⟨?_, reads.consumerName?.trans (text?_append_again again).symm,
        reads.streamName?.trans (text?_append_again again).symm⟩
      rw [reads.problems, problems_append_again asked again]
    · rw [(reads.contains_missing_iff asked).mpr again, Bool.not_true, if_neg Bool.false_ne_true]
      exact reads.accept asked again v
  · rw [if_pos asked]
    have apart {n : String} (inside : n ∈ fieldNames) : text? (fields ++ [(name, v)]) n = text? fields n :=
      text?_append_of_ne fun same : name = n => asked (same ▸ inside)
    exact ⟨by rw [reads.problems, problems_append_unknown asked], reads.consumerName?.trans (apart (by decide)).symm,
      reads.streamName?.trans (apart (by decide)).symm⟩

theorem reads_scan (fields : List (String × Value)) : (scan fields).Reads fields := by
  -- On the fields from the last one, since the loop has gone through all those before it.
  induction fields using List.reverseRecOn with
  | nil => exact Progress.reads_start
  | append_singleton fields field ih =>
    rw [scan, List.foldl_append]
    exact ih.step field.1 field.2

/-! ## What is read of an object -/

/-- The text that is read for a name, where there is one. -/
def textOf (fields : List (String × Value)) (name : String) : String := (text? fields name).getD ""

/-- Where nothing is wrong, both names have a text. -/
theorem text?_of_isNone (sound : (problems fields).isNone = true) (asked : name ∈ fieldNames) :
    text? fields name = some (textOf fields name) := by
  simp only [StreamProblems.isNone, problems, Bool.and_eq_true, OrderedSet.isEmpty_iff, OrderedSet.toList_filter,
    List.filter_eq_nil_iff, OrderedSet.mem_ofList, decide_eq_true_eq, not_not] at sound
  obtain ⟨⟨⟨missing, -⟩, invalid⟩, -⟩ := sound
  have given : name ∈ (fields.map Prod.fst).filter (· ∈ fieldNames) :=
    List.mem_filter.mpr ⟨missing name asked, decide_eq_true asked⟩
  obtain ⟨text, read⟩ := Option.ne_none_iff_exists'.mp (mt Option.isNone_iff_eq_none.mpr (invalid name given))
  rw [textOf, read]
  rfl

/-- An object with fields gives the texts of the two names, or is told what is wrong with it. -/
theorem read_object (some_field : fields ≠ []) : read (.object fields) =
    if (problems fields).isNone then
      .ok (some ⟨textOf fields Vocabulary.consumerName, textOf fields Vocabulary.streamName⟩)
    else .error (.fields (problems fields)) := by
  have reads := reads_scan fields
  obtain ⟨first, rest, rfl⟩ := List.exists_cons_of_ne_nil some_field
  simp only [read, reads.problems, reads.consumerName?, reads.streamName?]
  split
  · next sound =>
    rw [text?_of_isNone sound (by decide), text?_of_isNone sound (by decide)]
    rfl
  · rfl

theorem read_of_bare {v : Value} (bare : ∀ fields, v = .object fields → fields = []) : read v = .error .notObject := by
  unfold read
  split
  · next first rest => exact nomatch bare _ rfl
  · rfl

/-- What is read is never nothing. -/
theorem eq_some_of_read {c? : Option StreamConfiguration} (ok : read v = .ok c?) :
    ∃ fields, v = .object fields ∧ (problems fields).isNone = true ∧
      c? = some ⟨textOf fields Vocabulary.consumerName, textOf fields Vocabulary.streamName⟩ := by
  by_cases bare : ∀ fields, v = .object fields → fields = []
  · exact nomatch (read_of_bare bare).symm.trans ok
  · obtain ⟨fields, rfl, some_field⟩ : ∃ fields, v = .object fields ∧ fields ≠ [] := by simpa using bare
    rw [read_object some_field] at ok
    split at ok
    · next sound => exact ⟨fields, rfl, sound, (Except.ok.inj ok).symm⟩
    · cases ok

end Event.StreamConfiguration

end Federation
