import Federation.Event.Binding
import Federation.Proofs.Event.Scan
import Federation.Proofs.Survey.Intake

/-!
# What event directives declare

The binding that an event directive declares can be read off the directive. The arguments of its field only decide
whether the directive is in order. A host has at most one application of each event directive, so those that it keeps
stand in the order of the text.
-/

namespace Federation

open Schema

namespace Event

/-! ## Bindings -/

/-- The subjects that a directive names. -/
def writtenSubjects (d : Directive) : SubjectArgument → List String
  | .single name => ((d.argument? name).bind Value.string?).toList
  | .list name => (((d.argument? name).bind Value.list?).getD []).filterMap Value.string?

/-- The stream configuration that a directive gives. -/
def writtenStream (d : Directive) : Option StreamConfiguration :=
  ((d.argument? Vocabulary.streamConfiguration).bind Value.object?).map fun fields =>
    let text (name : String) : String := ((StreamConfiguration.value? fields name).bind Value.string?).getD ""
    ⟨text Vocabulary.consumerName, text Vocabulary.streamName⟩

/-- The binding of a field that a directive declares, as it is written. -/
def declaredBinding (field : String) (d : Directive) : Binding :=
  let operation := operationOf d.name
  { field
    providerId := ((d.argument? Vocabulary.providerId).bind Value.string?).getD Vocabulary.defaultProvider
    provider := operation.provider
    kind := operation.kind
    subjects := writtenSubjects d operation.subjects
    stream? := if operation.takesStream then writtenStream d else none }

theorem string?_of_nonEmptyString? {v : Value} {text : String} (h : v.nonEmptyString? = some text) :
    v.string? = some text :=
  (Option.filter_eq_some_iff.mp h).1

theorem providerId_of_noFaults {d : Directive} (quiet : (providerId d).2 = []) :
    (providerId d).1 =
      ((d.argument? Vocabulary.providerId).bind Value.string?).getD Vocabulary.defaultProvider := by
  unfold providerId at quiet ⊢
  cases given : d.argument? Vocabulary.providerId with
  | none => rfl
  | some value =>
    simp only [given] at quiet ⊢
    cases text : value.nonEmptyString? with
    | none => simp [text] at quiet
    | some id => simp [string?_of_nonEmptyString? text]

theorem listedSubjects_of_noFaults {arguments : Table String InputValue} {argument : String} (values : List Value)
    (quiet : (listedSubjects arguments argument values).2 = []) :
    (listedSubjects arguments argument values).1 = values.filterMap Value.string? := by
  induction values with
  | nil => rfl
  | cons v rest ih =>
    unfold listedSubjects at quiet ⊢
    cases text : v.nonEmptyString? with
    | none => simp [text] at quiet
    | some subject =>
      simp only [text, List.append_eq_nil_iff] at quiet ⊢
      rw [ih quiet.2, List.filterMap_cons, string?_of_nonEmptyString? text]

theorem subjects_of_noFaults {arguments : Table String InputValue} {d : Directive} {s : SubjectArgument}
    (quiet : (subjects arguments d s).2 = []) : (subjects arguments d s).1 = writtenSubjects d s := by
  cases s with
  | single name =>
    unfold subjects writtenSubjects at *
    cases given : d.argument? name with
    | none => simp [given] at quiet
    | some value =>
      simp only [given, Option.bind_some] at quiet ⊢
      cases text : value.nonEmptyString? with
      | none => simp [text] at quiet
      | some subject => simp [string?_of_nonEmptyString? text]
  | list name =>
    unfold subjects writtenSubjects at *
    cases given : (d.argument? name).bind Value.list? with
    | none => simp [given] at quiet
    | some values =>
      simp only [given] at quiet ⊢
      exact listedSubjects_of_noFaults values quiet

/-- An empty text counts as none. -/
theorem getD_nonEmptyString? (v? : Option Value) :
    (v?.bind Value.nonEmptyString?).getD "" = (v?.bind Value.string?).getD "" := by
  cases v? with
  | none => rfl
  | some v =>
    change (v.string?.filter (· ≠ "")).getD "" = v.string?.getD ""
    cases v.string? with
    | none => rfl
    | some text => by_cases blank : text = "" <;> simp [Option.filter_some, blank]

theorem stream_of_noFaults {d : Directive} (quiet : (stream d).2 = []) : (stream d).1 = writtenStream d := by
  unfold stream writtenStream at *
  cases given : d.argument? Vocabulary.streamConfiguration with
  | none => rfl
  | some value =>
    simp only [given] at quiet ⊢
    cases read : StreamConfiguration.read value with
    | error fault => simp [read] at quiet
    | ok =>
      obtain ⟨fields, rfl, -, rfl⟩ := StreamConfiguration.eq_some_of_read read
      simp [Value.object?, StreamConfiguration.textOf, StreamConfiguration.text?, getD_nonEmptyString?]

/-- What is made of the stream configuration, where the operation takes one. -/
def streamOf (d : Directive) : Option StreamConfiguration × List Fault :=
  if (operationOf d.name).takesStream then stream d else (none, [])

theorem bind_eq (field : String) (arguments : Table String InputValue) (d : Directive) :
    bind field arguments d =
      let operation := operationOf d.name
      let faults := (providerId d).2 ++ (subjects arguments d operation.subjects).2 ++ (streamOf d).2
      if faults.isEmpty then
        .ok ⟨field, (providerId d).1, operation.provider, operation.kind, (subjects arguments d operation.subjects).1,
          (streamOf d).1⟩
      else .error faults := rfl

/-- A directive that is in order is bound as it is written. -/
theorem eq_declaredBinding_of_bind {field : String} {arguments : Table String InputValue} {d : Directive} {b : Binding}
    (bound : bind field arguments d = .ok b) : b = declaredBinding field d := by
  rw [bind_eq] at bound
  dsimp only at bound
  split at bound
  · next quiet =>
    obtain rfl := Except.ok.inj bound
    simp only [List.isEmpty_iff, List.append_eq_nil_iff] at quiet
    obtain ⟨⟨provider, subjects⟩, stream⟩ := quiet
    have streamed : (streamOf d).1 = if (operationOf d.name).takesStream then writtenStream d else none := by
      unfold streamOf at stream ⊢
      split at stream
      · next takes => rw [if_pos takes, if_pos takes, stream_of_noFaults stream]
      · next takes => rw [if_neg takes, if_neg takes]
    rw [providerId_of_noFaults provider, subjects_of_noFaults subjects, streamed]
    rfl
  · cases bound

/-! ## Event directives on a host -/

/-- Whether a directive binds events. -/
def isEvent (d : Directive) : Bool := decide (d.name ∈ Vocabulary.eventDirectives)

theorem directives_empty : directives .empty = [] := rfl

theorem directives_add_of_other {applied : AppliedDirectives} {d : Directive} (other : isEvent d = false) :
    directives (applied.add d) = directives applied :=
  Table.flatMap_toList_upsert applied d.name _ _ fun _ => if_neg (of_decide_eq_false other)

theorem directives_add_of_event {applied : AppliedDirectives} {d : Directive} (event : isEvent d = true)
    (new : d.name ∉ Table.keys applied) : directives (applied.add d) = directives applied ++ [d] := by
  unfold directives AppliedDirectives.add
  rw [Table.toList_upsert_of_notMem new, List.flatMap_append]
  simp [of_decide_eq_true event]

/-- Every subgraph knows the event directives, and none of them may be repeated on a host. -/
theorem directive?_of_isEvent (setting : Setting) {d : Directive} (event : isEvent d = true) :
    ∃ definition, setting.directive? d.name = some definition ∧ definition.isRepeatable = false := by
  have known : ∀ name ∈ Vocabulary.eventDirectives,
      (Catalogue.directive? name).any (fun definition => !definition.isRepeatable) = true := by
    decide
  obtain ⟨definition, found, once⟩ := (Option.any_eq_true _ _).mp (known d.name (of_decide_eq_true event))
  exact ⟨definition, by simp [Setting.directive?, found], by simpa using once⟩

end Event

namespace Intake

variable {setting : Setting} {location : Location} {hostPath : String} {i : Intake} {d : Directive}

/-- Without errors a directive that may not be repeated is not repeated. -/
theorem not_mem_keys_of_clean {definition : DirectiveDefinition} (known : setting.directive? d.name = some definition)
    (once : definition.isRepeatable = false) (fresh : i.repeats = .empty)
    (clean : (step setting location hostPath i d).errors = []) : d.name ∉ Table.keys i.accepted := by
  intro repeated
  have again : Table.contains i.accepted d.name = true := Table.contains_iff.mpr repeated
  unfold step judge at clean
  simp [known, once, fresh, again, OrderedSet.contains] at clean

theorem directives_step (fresh : i.repeats = .empty) (clean : (step setting location hostPath i d).errors = []) :
    Event.directives (step setting location hostPath i d).accepted =
      Event.directives i.accepted ++ [d].filter Event.isEvent := by
  rw [(step_of_clean setting location hostPath i d fresh clean).2]
  cases event : Event.isEvent d with
  | false =>
    split
    · simp [event]
    · simp [event, Event.directives_add_of_other event]
  | true =>
    obtain ⟨definition, known, once⟩ := Event.directive?_of_isEvent setting event
    have new := not_mem_keys_of_clean known once fresh clean
    -- Event directives are among those that no location sets aside.
    have kept : isSetAside location i.accepted d = false := by
      have names := of_decide_eq_true event
      simp only [Vocabulary.eventDirectives, List.mem_cons, List.not_mem_nil, or_false] at names
      rcases names with name | name | name | name | name <;>
        simp [isSetAside, name, Vocabulary.kafkaPublish, Vocabulary.kafkaSubscribe, Vocabulary.natsPublish,
          Vocabulary.natsRequest, Vocabulary.natsSubscribe, Vocabulary.extendsDirective, Vocabulary.override,
          Vocabulary.authenticated, Vocabulary.requiresScopes, Vocabulary.key]
    rw [if_neg (Bool.eq_false_iff.mp kept), Event.directives_add_of_event event new]
    simp [event]

/-- An intake without errors keeps all event directives. -/
theorem directives_run {applied : List Directive} (fresh : i.repeats = .empty)
    (clean : (applied.foldl (step setting location hostPath) i).errors = []) :
    Event.directives (applied.foldl (step setting location hostPath) i).accepted =
      Event.directives i.accepted ++ applied.filter Event.isEvent := by
  induction applied generalizing i with
  | nil => exact (List.append_nil _).symm
  | cons d rest ih =>
    have later := Survey.errors_prefix_intake setting location hostPath rest (step setting location hostPath i d)
    have now : (step setting location hostPath i d).errors = [] := List.prefix_nil.mp (clean ▸ later)
    have kept := Survey.repeats_step setting location hostPath i d now
    have parts : (d :: rest).filter Event.isEvent = [d].filter Event.isEvent ++ rest.filter Event.isEvent :=
      List.filter_append [d] rest
    rw [List.foldl_cons, ih (kept.trans fresh) clean, directives_step fresh now, List.append_assoc, parts]

end Intake

end Federation
