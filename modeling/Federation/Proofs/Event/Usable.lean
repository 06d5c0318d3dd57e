import Federation.Proofs.Document.Conformance
import Federation.Proofs.Event.Fidelity
import Federation.Proofs.Survey.Key
import Federation.Proofs.Text.Template

/-!
# Bindings that can be used

Every binding that a router is told of names its provider and its subjects, refers to arguments of its field alone and
has the provider and the kind of its directive. What may be missing is a subject: a directive that lists subjects may
list none.
-/

namespace Federation

open Schema

namespace Event

/-! ## What a directive in order declares -/

/-- Brokers and kinds of operations by directive. -/
def brokers : List (String × Provider × Kind) :=
  [("edfs__kafkaPublish", .kafka, .publish), ("edfs__kafkaSubscribe", .kafka, .subscribe),
    ("edfs__natsPublish", .nats, .publish), ("edfs__natsRequest", .nats, .request),
    ("edfs__natsSubscribe", .nats, .subscribe)]

/-- A binding whose texts are not empty and whose templates refer to given arguments alone. -/
structure Binding.Usable (b : Binding) (arguments : List String) : Prop where
  provider : b.providerId ≠ ""
  subjects : ∀ subject ∈ b.subjects, subject ≠ ""
  references : ∀ subject ∈ b.subjects, ∀ name, Text.Template.Refers subject name → name ∈ arguments
  stream : ∀ stream ∈ b.stream?, stream.consumerName ≠ "" ∧ stream.streamName ≠ ""

theorem Binding.Usable.mono {b : Binding} {arguments more : List String} (usable : b.Usable arguments)
    (among : ∀ name ∈ arguments, name ∈ more) : b.Usable more :=
  { usable with
    references := fun subject listed name refers => among name (usable.references subject listed name refers) }

theorem ne_empty_of_nonEmptyString? {v : Value} {text : String} (h : v.nonEmptyString? = some text) : text ≠ "" := by
  simpa using (Option.filter_eq_some_iff.mp h).2

theorem providerId_ne_empty (d : Directive) : (providerId d).1 ≠ "" := by
  unfold providerId
  split
  · decide
  · split
    · next named => exact ne_empty_of_nonEmptyString? named
    · decide

theorem referenceFaults_eq_nil_iff {arguments : Table String InputValue} {template : String} :
    referenceFaults arguments template = [] ↔ ∀ name, Text.Template.Refers template name → name ∈ arguments.keys := by
  simp only [referenceFaults, List.filterMap_eq_nil_iff, Text.Template.mem_argumentNames_iff]
  refine forall₂_congr fun name _ => ?_
  rw [← Table.contains_iff]
  split <;> simp_all

section Subjects

variable {arguments : Table String InputValue}

theorem mem_listedSubjects_of_noFaults {argument : String} {values : List Value}
    (quiet : (listedSubjects arguments argument values).2 = []) :
    ∀ subject ∈ (listedSubjects arguments argument values).1,
      subject ≠ "" ∧ referenceFaults arguments subject = [] := by
  induction values with
  | nil => exact fun _ => nofun
  | cons v rest ih =>
    unfold listedSubjects at quiet ⊢
    cases text : v.nonEmptyString? with
    | none => simp [text] at quiet
    | some subject =>
      simp only [text, List.append_eq_nil_iff] at quiet ⊢
      exact List.forall_mem_cons.mpr ⟨⟨ne_empty_of_nonEmptyString? text, quiet.1⟩, ih quiet.2⟩

theorem listedSubjects_eq_nil_iff {argument : String} {values : List Value}
    (quiet : (listedSubjects arguments argument values).2 = []) :
    (listedSubjects arguments argument values).1 = [] ↔ values = [] := by
  cases values with
  | nil => exact iff_of_true rfl rfl
  | cons v rest =>
    unfold listedSubjects at quiet ⊢
    cases text : v.nonEmptyString? with
    | none => simp [text] at quiet
    | some subject => simp

/-- A directive names one subject, or it lists subjects. -/
theorem subjects_cases {d : Directive} {s : SubjectArgument} (quiet : (subjects arguments d s).2 = []) :
    (∃ name subject, s = .single name ∧ subjects arguments d s = ([subject], []) ∧ subject ≠ "" ∧
      referenceFaults arguments subject = []) ∨
    ∃ name values, s = .list name ∧ d.argument? name = some (.list values) ∧
      subjects arguments d s = listedSubjects arguments name values := by
  cases s with
  | single name =>
    cases given : (d.argument? name).bind Value.nonEmptyString? with
    | none => simp [subjects, given] at quiet
    | some subject =>
      obtain ⟨value, -, text⟩ := Option.bind_eq_some_iff.mp given
      simp only [subjects, given] at quiet ⊢
      exact .inl ⟨name, subject, rfl, by rw [quiet], ne_empty_of_nonEmptyString? text, quiet⟩
  | list name =>
    cases given : (d.argument? name).bind Value.list? with
    | none => simp [subjects, given] at quiet
    | some values =>
      obtain ⟨value, written, listed⟩ := Option.bind_eq_some_iff.mp given
      cases value with
      | list items =>
        obtain rfl := Option.some.inj listed
        exact .inr ⟨name, items, rfl, written, by simp only [subjects, given]⟩
      | null | int | float | string | boolean | enum | object => cases listed

theorem mem_subjects_of_noFaults {d : Directive} {s : SubjectArgument} (quiet : (subjects arguments d s).2 = []) :
    ∀ subject ∈ (subjects arguments d s).1, subject ≠ "" ∧ referenceFaults arguments subject = [] := by
  rcases subjects_cases quiet with ⟨name, subject, -, same, nonempty, declared⟩ | ⟨name, values, -, -, same⟩
  · rw [same]
    exact List.forall_mem_singleton.mpr ⟨nonempty, declared⟩
  · rw [same] at quiet ⊢
    exact mem_listedSubjects_of_noFaults quiet

/-- There is no subject just where an empty list is given. -/
theorem subjects_eq_nil_iff {d : Directive} {s : SubjectArgument} (quiet : (subjects arguments d s).2 = []) :
    (subjects arguments d s).1 = [] ↔ ∃ name, s = .list name ∧ d.argument? name = some (.list []) := by
  rcases subjects_cases quiet with ⟨name, subject, rfl, same, -, -⟩ | ⟨name, values, rfl, given, same⟩
  · simp [same]
  · rw [same] at quiet ⊢
    rw [listedSubjects_eq_nil_iff quiet]
    simp [given]

end Subjects

/-- Every field that a stream configuration must have is there and not empty. -/
theorem StreamConfiguration.textOf_ne_empty {fields : List (String × Value)} (sound : (problems fields).isNone = true)
    {name : String} (asked : name ∈ fieldNames) : textOf fields name ≠ "" := by
  obtain ⟨value, -, read⟩ := Option.bind_eq_some_iff.mp (text?_of_isNone sound asked)
  exact ne_empty_of_nonEmptyString? read

theorem StreamConfiguration.names_ne_empty {v : Value} {configuration : StreamConfiguration}
    (ok : read v = .ok (some configuration)) : configuration.consumerName ≠ "" ∧ configuration.streamName ≠ "" := by
  obtain ⟨fields, -, sound, same⟩ := eq_some_of_read ok
  obtain rfl := Option.some.inj same
  exact ⟨textOf_ne_empty sound (by decide), textOf_ne_empty sound (by decide)⟩

theorem streamOf_ne_empty {d : Directive} {configuration : StreamConfiguration}
    (given : configuration ∈ (streamOf d).1) :
    configuration.consumerName ≠ "" ∧ configuration.streamName ≠ "" := by
  unfold streamOf stream at given
  split at given
  · split at given
    · cases given
    · split at given
      · next configuration? read =>
        obtain rfl : configuration? = some configuration := given
        exact StreamConfiguration.names_ne_empty read
      · cases given
  · cases given

/-! ## Bindings of directives in order -/

/-- Whether a directive lists subjects and lists none. -/
def ListsNothing (d : Directive) : Prop :=
  d.name = Vocabulary.kafkaSubscribe ∧ d.argument? Vocabulary.topics = some (.list []) ∨
    d.name = Vocabulary.natsSubscribe ∧ d.argument? Vocabulary.subjects = some (.list [])

theorem broker_of_event : ∀ name ∈ Vocabulary.eventDirectives,
    (name, (operationOf name).provider, (operationOf name).kind) ∈ brokers := by
  decide

theorem listsNothing_iff {d : Directive} (event : d.name ∈ Vocabulary.eventDirectives) :
    ListsNothing d ↔ ∃ name, (operationOf d.name).subjects = .list name ∧ d.argument? name = some (.list []) := by
  simp only [Vocabulary.eventDirectives, List.mem_cons, List.not_mem_nil, or_false] at event
  rcases event with name | name | name | name | name <;>
    simp [ListsNothing, operationOf, name, Vocabulary.kafkaPublish, Vocabulary.kafkaSubscribe, Vocabulary.natsPublish,
      Vocabulary.natsRequest, Vocabulary.natsSubscribe]

/-- What is bound without faults can be used, but may have no subject. -/
theorem usable_of_bind {field : String} {arguments : Table String InputValue} {d : Directive} {b : Binding}
    (event : d.name ∈ Vocabulary.eventDirectives) (bound : bind field arguments d = .ok b) :
    (d.name, b.provider, b.kind) ∈ brokers ∧ b.Usable arguments.keys ∧ (b.subjects = [] ↔ ListsNothing d) := by
  rw [bind_eq] at bound
  dsimp only at bound
  split at bound
  · next quiet =>
    obtain rfl := Except.ok.inj bound
    simp only [List.isEmpty_iff, List.append_eq_nil_iff] at quiet
    obtain ⟨⟨-, quiet⟩, -⟩ := quiet
    refine ⟨broker_of_event d.name event, ⟨providerId_ne_empty d, fun subject listed => ?_, fun subject listed => ?_,
      fun stream => streamOf_ne_empty⟩, (subjects_eq_nil_iff quiet).trans (listsNothing_iff event).symm⟩
    · exact (mem_subjects_of_noFaults quiet subject listed).1
    · exact referenceFaults_eq_nil_iff.mp (mem_subjects_of_noFaults quiet subject listed).2
  · cases bound

theorem mem_directives {applied : AppliedDirectives} {d : Directive} :
    d ∈ directives applied ↔ ∃ name ∈ Vocabulary.eventDirectives, d ∈ applied.named name := by
  unfold directives AppliedDirectives.named Table.getD
  simp only [List.mem_flatMap, Prod.exists, Table.mem_toList]
  constructor
  · rintro ⟨name, ds, found, member⟩
    split at member
    · next event => exact ⟨name, event, by simpa [found] using member⟩
    · cases member
  · rintro ⟨name, event, member⟩
    cases found : Table.get? applied name with
    | none => simp [found] at member
    | some ds => exact ⟨name, ds, found, by simpa [found, event] using member⟩

end Event

/-! ## Bindings that a survey records -/

namespace Field

/-- From one state of a field to the other arguments and applications are only added. -/
structure Extends (before after : Field) : Prop where
  arguments : ∀ name ∈ before.arguments.keys, name ∈ after.arguments.keys
  directives : before.directives.Extends after.directives

theorem Extends.refl (f : Field) : Extends f f := ⟨fun _ => id, .refl _⟩

theorem mem_keys_joinArgument {setting : Setting} {parent field : String} {arguments : Table String InputValue}
    (a : InputValueDefinition) {name : String} (member : name ∈ arguments.keys) :
    name ∈ (joinArgument setting parent field arguments a).keys := by
  unfold joinArgument
  split
  · exact member
  · exact Table.mem_keys_upsert.mpr (.inl member)

theorem extends_declared (setting : Setting) (parent : String) (isParentExternal : Bool) (old : Field)
    (f : FieldDefinition) : old.Extends (.declared setting parent isParentExternal (some old) f) where
  arguments name member :=
    List.foldlRecOn (motive := fun arguments : Table String InputValue => name ∈ arguments.keys) f.arguments _ member
      fun _ kept a _ => mem_keys_joinArgument a kept
  directives := Intake.extends_run setting .fieldDefinition (coordinates parent f.name) f.directives
    ⟨old.directives, [], .empty, []⟩

end Field

namespace Survey

/-- Whether a binding under a canonical name was made from an event directive of a registered field, and against
arguments that the field has. -/
def Binds (setting : Setting) (types : Registry) (canonicalName : String) (b : Event.Binding) : Prop :=
  ∃ typeName field, setting.roots.canonicalName typeName = canonicalName ∧
    types.field? typeName b.field = some field ∧
      ∃ d ∈ Event.directives field.directives, ∃ arguments : Table String InputValue,
        (∀ name ∈ arguments.keys, name ∈ field.arguments.keys) ∧ Event.bind b.field arguments d = .ok b

section Binds

variable {setting : Setting} {types types' : Registry} {canonicalName : String} {b : Event.Binding}

/-- What was bound stays so while fields are only added to. -/
theorem Binds.mono (grown : ∀ typeName name field, types.field? typeName name = some field →
      ∃ field', types'.field? typeName name = some field' ∧ field.Extends field')
    (binds : Binds setting types canonicalName b) : Binds setting types' canonicalName b := by
  obtain ⟨typeName, field, canonical, known, d, event, arguments, among, bound⟩ := binds
  obtain ⟨field', known', extended⟩ := grown typeName b.field field known
  obtain ⟨name, listed, member⟩ := Event.mem_directives.mp event
  have event' := Event.mem_directives.mpr ⟨name, listed, (extended.directives.named name).subset member⟩
  exact ⟨typeName, field', canonical, known', d, event', arguments,
    fun name member => extended.arguments name (among name member), bound⟩

theorem Binds.of_field?_eq (same : ∀ typeName name, types'.field? typeName name = types.field? typeName name)
    (binds : Binds setting types canonicalName b) : Binds setting types' canonicalName b :=
  binds.mono fun typeName name field known => ⟨field, (same typeName name).trans known, .refl field⟩

end Binds

variable {setting : Setting} {s : Survey}

/-- Whether all recorded bindings were made from directives of registered fields. -/
def BindsSoundly (setting : Setting) (s : Survey) : Prop :=
  ∀ canonicalName, ∀ b ∈ s.bindings.getD canonicalName [], Binds setting s.types canonicalName b

theorem BindsSoundly.of_eq {s' : Survey} (before : BindsSoundly setting s) (bindings : s'.bindings = s.bindings)
    (fields : ∀ typeName name, s'.types.field? typeName name = s.types.field? typeName name) :
    BindsSoundly setting s' := fun canonicalName b listed =>
  (before canonicalName b (bindings ▸ listed)).of_field?_eq fields

theorem bindsSoundly_mergeField {parent : String} {entry : TypeEntry} {f : FieldDefinition}
    (composite : (s.types.composite? parent).isSome = true) (before : BindsSoundly setting s) :
    BindsSoundly setting (s.mergeField setting parent entry (s.types.field? parent f.name) f) := by
  intro canonicalName b listed
  have fields := field?_mergeField setting composite entry (s.types.field? parent f.name) f
  rcases (recordsField_mergeField setting s parent entry (s.types.field? parent f.name) f).bound canonicalName b listed
    with earlier | ⟨new, rfl, d, event, bound⟩
  · -- What was bound before is bound to the same field still, which may have grown.
    refine (before canonicalName b earlier).mono fun typeName name field known => ?_
    rw [fields]
    split
    · next here =>
      obtain ⟨rfl, rfl⟩ := here
      rw [known]
      exact ⟨_, rfl, Field.extends_declared ..⟩
    · exact ⟨field, known, .refl field⟩
  · -- A new binding is one of the field as it is declared for the first time, with exactly these arguments.
    have named : b.field = f.name := congrArg Event.Binding.field (Event.eq_declaredBinding_of_bind bound)
    rw [new] at fields ⊢
    exact ⟨parent, _, rfl, (fields parent b.field).trans (if_pos ⟨rfl, named⟩), d, event,
      f.arguments.foldl (Field.joinArgument setting parent f.name) .empty, fun _ => id, named ▸ bound⟩

theorem bindsSoundly_look {l : Look} (before : BindsSoundly setting s) : BindsSoundly setting (s.look setting l) := by
  have looked := looked_look setting s l
  generalize s.look setting l = s' at looked ⊢
  cases looked with
  | retained _ _ kept written => exact before.of_eq (written.same .bindings (by decide)) kept.field?
  | @type isExtension t =>
    exact before.of_eq ((writes_merge setting s isExtension t).same .bindings (by decide))
      (field?_of_mergesType (mergesType_merge setting isExtension t s))
  | conflict | duplicate => exact before.of_eq rfl fun _ _ => rfl
  | passed => exact before
  | field found composite _ =>
    exact bindsSoundly_mergeField (by rwa [Registry.composite?, found, Option.bind_some]) before

/-- Whatever a survey reports, it binds nothing but what directives in order declare. -/
theorem bindsSoundly_walk {statements : List Statement} {errors : List Error} :
    BindsSoundly setting (walk setting errors statements) :=
  walk_recOn (fun _ _ => nofun) fun _ _ _ _ _ => bindsSoundly_look

end Survey

/-! ## What the router is told -/

/-- Every event that the router is told of stems from a directive of a registered field: it is what that directive
declares, as it is written, and has its provider and kind. It can be used by calls of that field, but for a subject that
may be missing: it has none just where the directive lists none. -/
theorem events_usable {options : NormalizationOptions} {statements : List Statement} {n : NormalSubgraph}
    (valid : (normalize options statements).result? = some n) {canonicalName : String} {c : Router.Configuration}
    (found : n.configuration.get? canonicalName = some c) {b : Event.Binding} (told : b ∈ c.events) :
    ∃ typeName field, n.roots.canonicalName typeName = canonicalName ∧ n.types.field? typeName b.field = some field ∧
      ∃ d ∈ Event.directives field.directives, b = Event.declaredBinding b.field d ∧
        (d.name, b.provider, b.kind) ∈ Event.brokers ∧ b.Usable field.arguments.keys ∧
          (b.subjects = [] ↔ Event.ListsNothing d) := by
  obtain ⟨clean, rfl⟩ := result_of_normalize valid
  have v := Assembly.valid_of options.subgraph options.maxOrScopes statements clean
  have g := Assembly.grounded_of clean
  have soundly : Survey.BindsSoundly (Assembly.of options.subgraph options.maxOrScopes statements).setting
    (Assembly.of options.subgraph options.maxOrScopes statements).survey := Survey.bindsSoundly_walk
  generalize Assembly.of options.subgraph options.maxOrScopes statements = a at *
  obtain ⟨_, _, _, -, rfl, rfl⟩ := v.get?_configuration.mp found
  obtain ⟨typeName, field, canonical, known, d, event, arguments, among, bound⟩ := soundly _ b told
  refine ⟨typeName, field, canonical, known, d, event, ?_⟩
  -- Directives are filed under their own names.
  have named : d.name ∈ Vocabulary.eventDirectives := by
    obtain ⟨name, listed, member⟩ := Event.mem_directives.mp event
    exact (g.inOrder_of_field? known).filed name d member ▸ listed
  obtain ⟨broker, usable, subjects⟩ := Event.usable_of_bind named bound
  exact ⟨Event.eq_declaredBinding_of_bind bound, broker, usable.mono among, subjects⟩

/-- A subscription with one argument to a list of topics. -/
def topicSubscription (topics : List Value) : List Statement :=
  [.define (.type ⟨"Subscription", none, [], .object [] [⟨"s", none, [⟨"id", none, .named "ID" true, none, []⟩],
      .named "E" true, [⟨Vocabulary.kafkaSubscribe, [(Vocabulary.topics, .list topics)]⟩]⟩]⟩),
    .define (.type (entityType []))]

/-- A topic may be a template over the argument of the field. -/
theorem events_usable_template : ∃ n c b,
    (normalize .default (topicSubscription [.string "\x7b\x7b args.id \x7d\x7d"])).result? = some n ∧
      n.configuration.get? "Subscription" = some c ∧ b ∈ c.events ∧
        b = ⟨"s", "default", .kafka, .subscribe, ["\x7b\x7b args.id \x7d\x7d"], none⟩ ∧
      ∃ typeName field, n.roots.canonicalName typeName = "Subscription" ∧
        n.types.field? typeName b.field = some field ∧
          ∃ d ∈ Event.directives field.directives, b = Event.declaredBinding b.field d ∧
            (d.name, b.provider, b.kind) ∈ Event.brokers ∧ b.Usable field.arguments.keys ∧
              (b.subjects = [] ↔ Event.ListsNothing d) := by
  have accepted : (normalize .default (topicSubscription [.string "\x7b\x7b args.id \x7d\x7d"])).result?.any (fun n =>
      (n.configuration.get? "Subscription").any fun c => c.events.any fun b =>
        b = ⟨"s", "default", .kafka, .subscribe, ["\x7b\x7b args.id \x7d\x7d"], none⟩) = true := by
    decide +kernel
  simp only [Option.any_eq_true, List.any_eq_true, decide_eq_true_eq] at accepted
  obtain ⟨n, valid, c, found, b, told, same⟩ := accepted
  exact ⟨n, c, b, valid, found, told, same, events_usable valid found told⟩

/-- A list of topics may be empty, and then the event has no subject. -/
theorem events_without_subject : ∃ n c b, (normalize .default (topicSubscription [])).result? = some n ∧
    n.configuration.get? "Subscription" = some c ∧ b ∈ c.events ∧ b.subjects = [] := by
  have accepted : (normalize .default (topicSubscription [])).result?.any (fun n =>
      (n.configuration.get? "Subscription").any fun c => c.events.any fun b => b.subjects = []) = true := by
    decide +kernel
  simp only [Option.any_eq_true, List.any_eq_true, decide_eq_true_eq] at accepted
  obtain ⟨n, valid, c, found, b, told, none⟩ := accepted
  exact ⟨n, c, b, valid, found, told, none⟩

end Federation
