import Federation.Diagnostic.Message
import Federation.Proofs.Event.Usable
import Mathlib.Data.List.Permutation

/-!
# Stream configurations

A stream configuration is read from an object that gives its two names, each once and as a text that is not empty, and
nothing else. What is wrong with any other object is told in one message, which names every field that is missing, given
more than once, no such text or not known. A value that is no object has no fields to name, and an object without fields
is treated like it.
-/

namespace Federation

open Schema

theorem Schema.Value.nonEmptyString?_eq_some_iff {v : Value} {text : String} :
    v.nonEmptyString? = some text ↔ text ≠ "" ∧ v = .string text := by
  rw [Value.nonEmptyString?, Option.filter_eq_some_iff, decide_eq_true_eq, and_comm]
  refine and_congr_right fun _ => ?_
  cases v <;> simp [Value.string?]

namespace Event

open StreamConfiguration

/-! ## What can be wrong with the fields of an object -/

/-- Whether a value is a text that is not empty. -/
def IsText (v : Value) : Prop := ∃ text, text ≠ "" ∧ v = .string text

/-- Whether a field has this value where it is first given. -/
def FirstGives (fields : List (String × Value)) (name : String) (v : Value) : Prop :=
  ∃ before after, fields = before ++ (name, v) :: after ∧ name ∉ before.map Prod.fst

/-- What can be wrong with a field of a stream configuration. -/
inductive StreamFinding
  | missing
  | repeated
  | invalid
  | unknown

namespace StreamFinding

/-- Whether a finding is true of a name and the fields of an object. A field that is given more than once is judged by
its first value. -/
def Holds (fields : List (String × Value)) (name : String) : StreamFinding → Prop
  | missing => name ∈ fieldNames ∧ name ∉ fields.map Prod.fst
  | repeated => name ∈ fieldNames ∧ 2 ≤ (fields.map Prod.fst).count name
  | invalid => name ∈ fieldNames ∧ ∃ v, FirstGives fields name v ∧ ¬ IsText v
  | unknown => name ∉ fieldNames ∧ name ∈ fields.map Prod.fst

def all : List StreamFinding := [missing, repeated, invalid, unknown]

theorem mem_all (finding : StreamFinding) : finding ∈ all := by cases finding <;> simp [all]

def text : StreamFinding → String
  | missing => "missing"
  | repeated => "defined more than once"
  | invalid => "not non-empty strings"
  | unknown => "not valid fields"

end StreamFinding

/-- The names that are listed under a finding. -/
def StreamProblems.names (p : StreamProblems) : StreamFinding → List String
  | .missing => p.missing.toList
  | .repeated => p.repeated.toList
  | .invalid => p.invalid.toList
  | .unknown => p.unknown.toList

variable {fields : List (String × Value)} {name : String}

theorem isText_iff {v : Value} : IsText v ↔ v.nonEmptyString? ≠ none := by
  rw [Option.ne_none_iff_exists']
  exact exists_congr fun _ => Value.nonEmptyString?_eq_some_iff.symm

theorem value?_eq_some_iff {v : Value} : value? fields name = some v ↔ FirstGives fields name v := by
  simp only [value?, Option.map_eq_some_iff, Prod.exists, List.find?_eq_some_iff_append, decide_eq_true_eq,
    Bool.not_eq_true', decide_eq_false_iff_not]
  constructor
  · rintro ⟨_, v, ⟨rfl, before, after, split, first⟩, rfl⟩
    exact ⟨before, after, split, by simpa using fun v member => first _ member rfl⟩
  · rintro ⟨before, after, split, first⟩
    exact ⟨name, v, ⟨rfl, before, after, split, fun field member same =>
      first (List.mem_map.mpr ⟨field, member, same⟩)⟩, rfl⟩

theorem exists_firstGives (given : name ∈ fields.map Prod.fst) : ∃ v, FirstGives fields name v := by
  obtain ⟨before, after, split, first⟩ := List.eq_append_cons_of_mem given
  obtain ⟨before, later, rfl, rfl, more⟩ := List.map_eq_append_iff.mp split
  obtain ⟨⟨_, v⟩, after, rfl, rfl, -⟩ := List.map_eq_cons_iff.mp more
  exact ⟨v, before, after, rfl, first⟩

theorem FirstGives.mem {v : Value} (gives : FirstGives fields name v) : (name, v) ∈ fields := by
  obtain ⟨before, after, rfl, -⟩ := gives
  simp

/-- Where no name stands twice, each value is the first of its name. -/
theorem firstGives_of_mem {v : Value} (once : (fields.map Prod.fst).Nodup) (member : (name, v) ∈ fields) :
    FirstGives fields name v := by
  obtain ⟨before, after, split⟩ := List.append_of_mem member
  refine ⟨before, after, split, fun early => ?_⟩
  rw [split, List.map_append, List.map_cons] at once
  exact (List.nodup_append.mp once).2.2 name early name List.mem_cons_self rfl

/-- What is listed under a finding is what it is true of. -/
theorem mem_problems_iff {finding : StreamFinding} :
    name ∈ (problems fields).names finding ↔ finding.Holds fields name := by
  cases finding with
  | missing => simp [StreamProblems.names, problems, StreamFinding.Holds]
  | repeated =>
    -- Only names that are known count as repeated.
    have among : name ∈ OrderedSet.empty.repeated ((fields.map Prod.fst).filter (· ∈ fieldNames)) ↔
        name ∈ fieldNames ∧ 2 ≤ (fields.map Prod.fst).count name := by
      rw [OrderedSet.mem_repeated, List.mem_filter, decide_eq_true_eq, and_right_comm, and_comm]
      refine and_congr_right fun known => ?_
      have kept : ((fields.map Prod.fst).filter (· ∈ fieldNames)).count name = (fields.map Prod.fst).count name :=
        List.count_filter (decide_eq_true known)
      rw [kept, OrderedSet.toList_empty]
      simp only [List.not_mem_nil, false_or]
      exact ⟨And.right, fun twice => ⟨List.count_pos_iff.mp (by omega), twice⟩⟩
    simp only [StreamProblems.names, problems, OrderedSet.mem_ofList, among, StreamFinding.Holds]
  | invalid =>
    simp only [StreamProblems.names, problems, OrderedSet.toList_filter, List.mem_filter, OrderedSet.mem_ofList,
      decide_eq_true_eq, StreamFinding.Holds, and_assoc]
    constructor
    · rintro ⟨given, known, unread⟩
      obtain ⟨v, gives⟩ := exists_firstGives given
      refine ⟨known, v, gives, fun sound => isText_iff.mp sound ?_⟩
      rwa [text?, value?_eq_some_iff.mpr gives, Option.bind_some, Option.isNone_iff_eq_none] at unread
    · rintro ⟨known, v, gives, unsound⟩
      refine ⟨List.mem_map_of_mem gives.mem, known, ?_⟩
      rw [text?, value?_eq_some_iff.mpr gives, Option.bind_some, Option.isNone_iff_eq_none]
      exact not_not.mp (mt isText_iff.mpr unsound)
  | unknown => simp [StreamProblems.names, problems, StreamFinding.Holds, and_comm]

theorem nodup_names (p : StreamProblems) (finding : StreamFinding) : (p.names finding).Nodup := by
  cases finding <;> exact OrderedSet.nodup _

theorem StreamProblems.isNone_iff {p : StreamProblems} : p.isNone = true ↔ ∀ finding, p.names finding = [] := by
  simp only [isNone, Bool.and_eq_true, OrderedSet.isEmpty_iff]
  constructor
  · rintro ⟨⟨⟨missing, repeated⟩, invalid⟩, unknown⟩ finding
    cases finding <;> assumption
  · intro nothing
    exact ⟨⟨⟨nothing .missing, nothing .repeated⟩, nothing .invalid⟩, nothing .unknown⟩

theorem isNone_problems_iff :
    (problems fields).isNone = true ↔ ∀ finding name, ¬ StreamFinding.Holds fields name finding := by
  simp only [StreamProblems.isNone_iff, List.eq_nil_iff_forall_not_mem, mem_problems_iff]

/-! ## What is read -/

theorem textOf_of_firstGives {text : String} (some : text ≠ "") (gives : FirstGives fields name (.string text)) :
    textOf fields name = text := by
  rw [textOf, text?, value?_eq_some_iff.mpr gives, Option.bind_some, Value.nonEmptyString?_eq_some_iff.mpr ⟨some, rfl⟩]
  rfl

/-- The names of an object with which nothing is wrong. -/
theorem names_perm (sound : ∀ finding name, ¬ StreamFinding.Holds fields name finding) :
    (fields.map Prod.fst).Perm fieldNames := by
  have known : ∀ name ∈ fields.map Prod.fst, name ∈ fieldNames := fun name given =>
    not_not.mp fun unknown => sound .unknown name ⟨unknown, given⟩
  have once : (fields.map Prod.fst).Nodup := by
    refine List.nodup_iff_count_le_one.mpr fun name => ?_
    by_contra again
    have twice : 2 ≤ (fields.map Prod.fst).count name := by omega
    exact sound .repeated name ⟨known name (List.count_pos_iff.mp (by omega)), twice⟩
  refine (List.perm_ext_iff_of_nodup once (by decide)).mpr fun name => ⟨known name, fun asked => ?_⟩
  exact not_not.mp fun absent => sound .missing name ⟨asked, absent⟩

theorem fields_perm (sound : ∀ finding name, ¬ StreamFinding.Holds fields name finding) :
    fields.Perm [("consumerName", .string (textOf fields "consumerName")),
      ("streamName", .string (textOf fields "streamName"))] := by
  have names := names_perm sound
  have once : (fields.map Prod.fst).Nodup := names.nodup_iff.mpr (by decide)
  have written : ∀ field ∈ fields, (field.1, Value.string (textOf fields field.1)) = field := by
    rintro ⟨name, v⟩ member
    have gives := firstGives_of_mem once member
    have asked : name ∈ fieldNames := names.subset (List.mem_map_of_mem member)
    obtain ⟨text, some, rfl⟩ : IsText v := not_not.mp fun unsound => sound .invalid name ⟨asked, v, gives, unsound⟩
    rw [textOf_of_firstGives some gives]
  -- A field is told by its name, so that the order of the names is that of the fields.
  have whole : (fields.map Prod.fst).map (fun name => (name, Value.string (textOf fields name))) = fields := by
    rw [List.map_map]
    exact (List.map_congr_left written).trans (List.map_id fields)
  have order := names.map fun name => (name, Value.string (textOf fields name))
  rwa [whole] at order

/-- The configuration that a value gives: an object of the two names, each once and with a text, in either order. -/
structure StreamConfiguration.GivenBy (c : StreamConfiguration) (v : Value) : Prop where
  object : ∃ fields, v = .object fields ∧
    fields.Perm [("consumerName", .string c.consumerName), ("streamName", .string c.streamName)]
  consumerName : c.consumerName ≠ ""
  streamName : c.streamName ≠ ""

theorem StreamConfiguration.GivenBy.length_eq {c : StreamConfiguration} (given : c.GivenBy (.object fields)) :
    fields.length = 2 := by
  obtain ⟨⟨_, same, order⟩, -, -⟩ := given
  obtain rfl := Value.object.inj same
  exact order.length_eq

theorem sound_of_perm {c : StreamConfiguration} (consumer : c.consumerName ≠ "") (stream : c.streamName ≠ "")
    (order : fields.Perm [("consumerName", .string c.consumerName), ("streamName", .string c.streamName)])
    (finding : StreamFinding) (name : String) : ¬ finding.Holds fields name := by
  have names : (fields.map Prod.fst).Perm fieldNames := order.map Prod.fst
  intro holds
  cases finding with
  | missing => exact holds.2 (names.mem_iff.mpr holds.1)
  | repeated =>
    have once : fieldNames.count name ≤ 1 := List.nodup_iff_count_le_one.mp (by decide) name
    have twice := holds.2
    rw [names.count_eq] at twice
    omega
  | invalid =>
    obtain ⟨-, v, gives, unsound⟩ := holds
    have member := order.mem_iff.mp gives.mem
    simp only [List.mem_cons, Prod.mk.injEq, List.not_mem_nil, or_false] at member
    rcases member with ⟨-, rfl⟩ | ⟨-, rfl⟩
    · exact unsound ⟨_, consumer, rfl⟩
    · exact unsound ⟨_, stream, rfl⟩
  | unknown => exact holds.1 (names.mem_iff.mp holds.2)

/-- A configuration is read just where it is given. -/
theorem read_eq_ok_iff {v : Value} {c : StreamConfiguration} :
    StreamConfiguration.read v = .ok (some c) ↔ c.GivenBy v := by
  constructor
  · intro ok
    obtain ⟨consumer, stream⟩ := names_ne_empty ok
    obtain ⟨fields, rfl, sound, same⟩ := eq_some_of_read ok
    obtain rfl := Option.some.inj same
    exact ⟨⟨fields, rfl, fields_perm (isNone_problems_iff.mp sound)⟩, consumer, stream⟩
  · rintro ⟨⟨fields, rfl, order⟩, consumer, stream⟩
    have some_field : fields ≠ [] := fun none => by simp [none] at order
    have sound := sound_of_perm consumer stream order
    have once : (fields.map Prod.fst).Nodup := (names_perm sound).nodup_iff.mpr (by decide)
    have consumerText : textOf fields Vocabulary.consumerName = c.consumerName :=
      textOf_of_firstGives consumer (firstGives_of_mem once (order.mem_iff.mpr (by simp [Vocabulary.consumerName])))
    have streamText : textOf fields Vocabulary.streamName = c.streamName :=
      textOf_of_firstGives stream (firstGives_of_mem once (order.mem_iff.mpr (by simp [Vocabulary.streamName])))
    rw [read_object some_field, if_pos (isNone_problems_iff.mpr sound), consumerText, streamText]

/-! ## What is told -/

/-- Whether a message names a field: the name stands in it in quotation marks. -/
def Names (message name : String) : Prop := ("\"" ++ name ++ "\"").toList <:+: message.toList

/-- The findings that there are, each with the names that it is true of. -/
def StreamFinding.report (found : StreamFinding → List String) : String :=
  "; ".intercalate ((all.filter fun finding => !(found finding).isEmpty).map fun finding =>
    Diagnostic.quoted (found finding) ++ " (" ++ finding.text ++ ")")

theorem StreamProblems.text_eq (p : StreamProblems) : p.text = StreamFinding.report p.names := by
  obtain ⟨⟨missing, _⟩, ⟨repeated, _⟩, ⟨invalid, _⟩, ⟨unknown, _⟩⟩ := p
  -- Both texts leave out the lists that are empty.
  cases missing <;> cases repeated <;> cases invalid <;> cases unknown <;> rfl

theorem infix_intercalate {separator text : String} {texts : List String} (member : text ∈ texts) :
    text.toList <:+: (separator.intercalate texts).toList := by
  induction texts with
  | nil => cases member
  | cons first rest ih =>
    cases rest with
    | nil =>
      obtain rfl := List.mem_singleton.mp member
      rw [String.intercalate_singleton]
    | cons second rest =>
      rw [String.intercalate_cons_cons, String.toList_append, String.toList_append]
      rcases List.mem_cons.mp member with rfl | later
      · rw [List.append_assoc]
        exact (List.prefix_append _ _).isInfix
      · exact (ih later).trans (List.suffix_append _ _).isInfix

theorem names_report {found : StreamFinding → List String} {finding : StreamFinding} (listed : name ∈ found finding) :
    Names (StreamFinding.report found) name := by
  have quoted : Names (Diagnostic.quoted (found finding)) name :=
    infix_intercalate (List.mem_map.mpr ⟨name, listed, rfl⟩)
  have there : finding ∈ StreamFinding.all.filter fun finding => !(found finding).isEmpty :=
    List.mem_filter.mpr ⟨finding.mem_all, by simp [List.ne_nil_of_mem listed]⟩
  refine (quoted.trans ?_).trans (infix_intercalate (List.mem_map.mpr ⟨finding, there, rfl⟩))
  simp only [String.toList_append, List.append_assoc]
  exact (List.prefix_append _ _).isInfix

/-- What a message tells of the fields of an object that gives no configuration. -/
structure StreamFinding.Reported (fields : List (String × Value)) (message : String) : Prop where
  /-- Every field with which something is wrong is named. -/
  named : ∀ (finding : StreamFinding) name, finding.Holds fields name → Names message name
  /-- So is every field with a wrong value, also where that is not its first one. -/
  illTyped : ∀ name v, name ∈ fieldNames → (name, v) ∈ fields → ¬ IsText v → Names message name
  /-- Names stand under what is true of them, once each, and there is nothing else. -/
  text : ∃ found : StreamFinding → List String,
    (∀ finding, (found finding).Nodup ∧ ∀ name, name ∈ found finding ↔ finding.Holds fields name) ∧
      message = "The \"streamConfiguration\" argument is invalid: " ++ StreamFinding.report found ++ "."

/-- A wrong value is the first one of its field, or the field is given more than once. -/
theorem invalid_or_repeated {v : Value} (asked : name ∈ fieldNames) (member : (name, v) ∈ fields)
    (unsound : ¬ IsText v) :
    StreamFinding.invalid.Holds fields name ∨ StreamFinding.repeated.Holds fields name := by
  obtain ⟨before, after, split⟩ := List.append_of_mem member
  by_cases early : name ∈ before.map Prod.fst
  · refine .inr ⟨asked, ?_⟩
    have once := List.count_pos_iff.mpr early
    rw [split, List.map_append, List.map_cons, List.count_append, List.count_cons_self]
    omega
  · exact .inl ⟨asked, v, ⟨before, after, split, early⟩, unsound⟩

theorem message_fields (p : StreamProblems) : Fault.message (.stream (.fields p)) =
    "The \"streamConfiguration\" argument is invalid: " ++ StreamFinding.report p.names ++ "." := by
  rw [← p.text_eq]
  rfl

theorem reported_problems (fields : List (String × Value)) :
    StreamFinding.Reported fields (Fault.message (.stream (.fields (problems fields)))) := by
  have named (finding : StreamFinding) (name : String) (holds : finding.Holds fields name) :
      Names (Fault.message (.stream (.fields (problems fields)))) name := by
    refine List.IsInfix.trans (names_report (mem_problems_iff.mpr holds)) ?_
    rw [message_fields, String.toList_append, String.toList_append]
    exact List.infix_append _ _ _
  refine ⟨named, fun name v asked member unsound => ?_, (problems fields).names, fun finding =>
    ⟨nodup_names _ finding, fun name => mem_problems_iff⟩, message_fields _⟩
  exact (invalid_or_repeated asked member unsound).elim (named _ _) (named _ _)

section Given

variable {d : Directive} {v : Value} (given : d.argument? Vocabulary.streamConfiguration = some v)

include given

theorem stream_of_ok {c? : Option StreamConfiguration} (ok : StreamConfiguration.read v = .ok c?) :
    stream d = (c?, []) := by
  rw [stream, given]
  simp only [ok]

theorem stream_of_error {fault : StreamConfiguration.Fault} (failed : StreamConfiguration.read v = .error fault) :
    stream d = (none, [.stream fault]) := by
  rw [stream, given]
  simp only [failed]

/-- A stream configuration is read just where it is given. Everything else is refused with one message: an object is
told of all its fields that are wrong, and any other value, or an object without fields, that it is no such object. -/
theorem stream_read_or_reported : (∀ c, stream d = (some c, []) ↔ c.GivenBy v) ∧
    ((∀ c : StreamConfiguration, ¬ c.GivenBy v) → ∃ fault, stream d = (none, [fault]) ∧
      (∀ fields, v = .object fields → fields ≠ [] → StreamFinding.Reported fields fault.message) ∧
      ((∀ fields, v = .object fields → fields = []) →
        fault.message = "The \"streamConfiguration\" argument must be a non-empty input object.")) := by
  have exact_iff (c : StreamConfiguration) : stream d = (some c, []) ↔ c.GivenBy v := by
    rw [← read_eq_ok_iff]
    cases made : StreamConfiguration.read v with
    | ok => simp [stream_of_ok given made]
    | error => simp [stream_of_error given made]
  refine ⟨exact_iff, fun ungiven => ?_⟩
  cases made : StreamConfiguration.read v with
  | ok c? =>
    obtain ⟨_, -, -, rfl⟩ := eq_some_of_read made
    exact absurd (read_eq_ok_iff.mp made) (ungiven _)
  | error fault =>
    refine ⟨_, stream_of_error given made, fun fields object some => ?_, fun bare => ?_⟩
    · subst object
      rw [read_object some] at made
      split at made
      · cases made
      · obtain rfl := Except.error.inj made
        exact reported_problems fields
    · obtain rfl := Except.error.inj ((read_of_bare bare).symm.trans made)
      rfl

end Given

/-- All that is wrong is told at once, finding by finding. -/
example : (stream ⟨Vocabulary.natsSubscribe, [(Vocabulary.streamConfiguration,
    .object [("consumerName", .string ""), ("durable", .boolean true)])]⟩).2.map Fault.message =
      ["The \"streamConfiguration\" argument is invalid: \"streamName\" (missing); \"consumerName\" (not non-empty strings); \"durable\" (not valid fields)."] := by
  decide +kernel

/-- The two names, the second one first. -/
def swappedFields : List (String × Value) := [("streamName", .string "s"), ("consumerName", .string "c")]

/-- Fields of which one is not known and one is given twice, the second time as it should be. -/
def crowdedFields : List (String × Value) :=
  [("durable", .boolean true), ("consumerName", .string ""), ("consumerName", .string "c"), ("streamName", .string "s")]

/-- A subscription with these fields as its stream configuration. -/
def streamSubscription (fields : List (String × Value)) : Directive :=
  ⟨Vocabulary.natsSubscribe, [(Vocabulary.streamConfiguration, .object fields)]⟩

/-- The swapped fields are read, and one message names what is wrong with the crowded ones. -/
theorem swapped_read_crowded_reported :
    (streamSubscription swappedFields).argument? Vocabulary.streamConfiguration = some (.object swappedFields) ∧
      stream (streamSubscription swappedFields) = (some ⟨"c", "s"⟩, []) ∧
      (streamSubscription crowdedFields).argument? Vocabulary.streamConfiguration = some (.object crowdedFields) ∧
      (∀ c : StreamConfiguration, ¬ c.GivenBy (.object crowdedFields)) ∧
      ∃ fault, stream (streamSubscription crowdedFields) = (none, [fault]) ∧
        StreamFinding.Reported crowdedFields fault.message := by
  have given (fields : List (String × Value)) :
      (streamSubscription fields).argument? Vocabulary.streamConfiguration = some (.object fields) := rfl
  have swapped : StreamConfiguration.GivenBy ⟨"c", "s"⟩ (.object swappedFields) :=
    ⟨⟨_, rfl, .swap _ _ _⟩, by decide, by decide⟩
  have crowded (c : StreamConfiguration) : ¬ c.GivenBy (.object crowdedFields) := fun given =>
    absurd given.length_eq (by decide)
  obtain ⟨fault, once, reported, -⟩ := (stream_read_or_reported (given crowdedFields)).2 crowded
  exact ⟨given _, ((stream_read_or_reported (given swappedFields)).1 _).mpr swapped, given _, crowded, fault, once,
    reported _ rfl (List.cons_ne_nil _ _)⟩

/-- Both names are missing from an object without fields, and no message names them. -/
theorem bare_unnamed : (streamSubscription []).argument? Vocabulary.streamConfiguration = some (.object []) ∧
    (∀ c : StreamConfiguration, ¬ c.GivenBy (.object [])) ∧
      (∀ name ∈ fieldNames, StreamFinding.missing.Holds [] name) ∧
      ¬ ∃ fault, stream (streamSubscription []) = (none, [fault]) ∧ ∃ name ∈ fieldNames, Names fault.message name := by
  refine ⟨rfl, fun c given => absurd given.length_eq (by decide), fun name asked => ⟨asked, List.not_mem_nil⟩, ?_⟩
  rintro ⟨fault, told, name, asked, named⟩
  obtain rfl : Fault.stream .notObject = fault := List.singleton_inj.mp (Prod.mk.inj told).2
  have silent : ∀ name ∈ fieldNames,
      ¬ ("\"" ++ name ++ "\"").toList <:+: (Fault.message (.stream .notObject)).toList := by
    decide +kernel
  exact silent name asked named

end Event

end Federation
