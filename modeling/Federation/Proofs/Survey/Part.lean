import Federation.Normalization.Walk

/-!
# The parts of a survey that a step writes

A survey has many parts, and each of its steps writes a few of them. Here every step gets, once, the list of the parts
that it may write. That it leaves another part alone is then read off that list.
-/

namespace Federation

open Schema

namespace Survey

inductive Part
  | errors | repeats | schemaDirectives | types | ledger | concrete | facts | keySets | fieldSets | overrides
  | referenced | externals | filters | bindings
  deriving DecidableEq

/-- Whether two surveys agree on a part. -/
abbrev Part.Same (a b : Survey) : Part → Prop
  | .errors => b.errors = a.errors
  | .repeats => b.repeats = a.repeats
  | .schemaDirectives => b.schemaDirectives = a.schemaDirectives
  | .types => b.types = a.types
  | .ledger => b.ledger = a.ledger
  | .concrete => b.concrete = a.concrete
  | .facts => b.facts = a.facts
  | .keySets => b.keySets = a.keySets
  | .fieldSets => b.fieldSets = a.fieldSets
  | .overrides => b.overrides = a.overrides
  | .referenced => b.referenced = a.referenced
  | .externals => b.externals = a.externals
  | .filters => b.filters = a.filters
  | .bindings => b.bindings = a.bindings

/-- From one survey to the other no part is written but the given ones. -/
structure Writes (parts : List Part) (a b : Survey) : Prop where
  same : ∀ part, part ∉ parts → part.Same a b

namespace Writes

variable {parts more : List Part} {a b c : Survey}

theorem refl (a : Survey) : Writes parts a a := ⟨fun part _ => by cases part <;> rfl⟩

theorem mono (written : Writes parts a b) (among : ∀ part ∈ parts, part ∈ more) : Writes more a b :=
  ⟨fun part out => written.same part fun member => out (among part member)⟩

theorem trans (first : Writes parts a b) (second : Writes parts b c) : Writes parts a c := by
  refine ⟨fun part out => ?_⟩
  have one := first.same part out
  have two := second.same part out
  cases part <;> exact two.trans one

/-- A step that writes no more than was written before may follow. -/
theorem next {some : List Part} (before : Writes parts a b) (step : Writes some b c)
    (among : ∀ part ∈ some, part ∈ parts) : Writes parts a c := before.trans (step.mono among)

theorem foldl {α : Type} (step : Survey → α → Survey) (one : ∀ s x, Writes parts s (step s x)) (xs : List α)
    (s : Survey) : Writes parts s (xs.foldl step s) :=
  List.foldlRecOn xs step (refl s) fun s' before x _ => before.trans (one s' x)

end Writes

/-! ## One step at a time -/

section Steps

variable (setting : Setting) (s : Survey)

theorem writes_reportAll (es : List Error) : Writes [.errors] s (s.reportAll es) := by
  refine ⟨fun part out => ?_⟩
  cases part with
  | errors => exact absurd List.mem_cons_self out
  | _ => rfl

theorem writes_report (e : Error) : Writes [.errors] s (s.report e) := writes_reportAll s [e]

theorem writes_refer (typeName : String) : Writes [.referenced] s (s.refer typeName) := by
  refine ⟨fun part out => ?_⟩
  cases part with
  | referenced => exact absurd List.mem_cons_self out
  | _ => rfl

theorem writes_takeIn (location : Location) (hostPath : String) (accepted : AppliedDirectives)
    (applied : List Directive) :
    Writes [.errors, .repeats] s (s.takeIn setting location hostPath accepted applied).2 := by
  refine ⟨fun part out => ?_⟩
  cases part with
  | errors | repeats => exact absurd (by decide) out
  | _ => rfl

theorem writes_ledger (ledger : Authorization.Ledger) : Writes [.ledger] s { s with ledger } := by
  refine ⟨fun part out => ?_⟩
  cases part with
  | ledger => exact absurd List.mem_cons_self out
  | _ => rfl

theorem writes_authorize (host : Authorization.Host) (intake : Intake) :
    Writes [.ledger] s (s.authorize setting host intake) := writes_ledger s _

theorem writes_addConcrete (abstractName concreteName : String) :
    Writes [.concrete, .facts] s (s.addConcrete abstractName concreteName) := by
  refine ⟨fun part out => ?_⟩
  cases part with
  | concrete | facts => exact absurd (by decide) out
  | _ => rfl

theorem writes_types (types : Registry) : Writes [.types] s { s with types } := by
  refine ⟨fun part out => ?_⟩
  cases part with
  | types => exact absurd List.mem_cons_self out
  | _ => rfl

theorem writes_facts (facts : List Membership.Fact) : Writes [.facts] s { s with facts } := by
  refine ⟨fun part out => ?_⟩
  cases part with
  | facts => exact absurd List.mem_cons_self out
  | _ => rfl

theorem writes_bindings (bindings : Table String (List Event.Binding)) : Writes [.bindings] s { s with bindings } := by
  refine ⟨fun part out => ?_⟩
  cases part with
  | bindings => exact absurd List.mem_cons_self out
  | _ => rfl

theorem writes_reshape (typeName : String) (f : Shape → Shape) : Writes [.types] s (s.reshape typeName f) :=
  writes_types s _

theorem writes_recordOverrides (canonicalName field : String) (intake : Intake) :
    Writes [.overrides] s (s.recordOverrides canonicalName field intake) := by
  refine ⟨fun part out => ?_⟩
  cases part with
  | overrides => exact absurd List.mem_cons_self out
  | _ => rfl

theorem writes_recordExternal (path : String) (isExternal : Bool) :
    Writes [.externals] s (s.recordExternal path isExternal) := by
  unfold recordExternal
  split
  · refine ⟨fun part out => ?_⟩
    cases part with
    | externals => exact absurd List.mem_cons_self out
    | _ => rfl
  · exact .refl s

theorem writes_recordFilter (path : String) (operation : Option Operation) (applied : AppliedDirectives) :
    Writes [.filters] s (s.recordFilter path operation applied) := by
  unfold recordFilter
  split
  · refine ⟨fun part out => ?_⟩
    cases part with
    | filters => exact absurd List.mem_cons_self out
    | _ => rfl
  · exact .refl s

theorem writes_recordFieldSets (parent field : String) (applied : AppliedDirectives) :
    Writes [.fieldSets] s (s.recordFieldSets parent field applied) := by
  unfold recordFieldSets
  dsimp only
  split
  · exact .refl s
  · refine ⟨fun part out => ?_⟩
    cases part with
    | fieldSets => exact absurd List.mem_cons_self out
    | _ => rfl

theorem writes_recordKeys (typeName : String) (applied : AppliedDirectives) :
    Writes [.keySets] s (s.recordKeys typeName applied) := by
  unfold recordKeys
  dsimp only
  split
  · refine ⟨fun part out => ?_⟩
    cases part with
    | keySets => exact absurd List.mem_cons_self out
    | _ => rfl
  · exact .refl s

theorem writes_bindEvents (canonicalName field : String) (applied : AppliedDirectives)
    (arguments : Table String InputValue) :
    Writes [.errors, .bindings] s (s.bindEvents canonicalName field applied arguments) := by
  refine .foldl _ (fun s d => ?_) _ s
  split
  · exact (writes_report s _).mono (by decide)
  · exact (writes_bindings s _).mono (by decide)

theorem writes_recordMembers (t : TypeDefinition) (listed : NameSet) :
    Writes [.concrete, .facts, .referenced] s (s.recordMembers t listed) := by
  refine .foldl _ (fun s member => ?_) _ s
  have added : Writes [.concrete, .facts, .referenced] s (s.addConcrete t.name member) :=
    (writes_addConcrete s t.name member).mono (by decide)
  dsimp only
  split
  · exact added
  · exact added.next (writes_refer _ member) (by decide)

theorem writes_recordImplementations (typeName : String) :
    Writes [.concrete, .facts] s (s.recordImplementations typeName) := by
  unfold recordImplementations
  split
  · exact .foldl _ (fun s interface => writes_addConcrete s interface typeName) _ s
  · exact .refl s

theorem writes_sightArguments (kind : TypeKind) (parent field : String) (arguments : List InputValueDefinition)
    (acc : Table String InputValue × Survey) :
    Writes [.errors, .repeats, .referenced] acc.2
      (arguments.foldl (sightArgument setting kind parent field) acc).2 := by
  induction arguments generalizing acc with
  | nil => exact .refl _
  | cons a rest ih =>
    refine Writes.trans ?_ (ih _)
    unfold sightArgument
    dsimp only
    split
    · exact (writes_report _ _).mono (by decide)
    · have taken := writes_takeIn setting acc.2 .argumentDefinition s!"{parent}.{field}({a.name}: ...)" .empty
        a.directives
      exact (taken.mono (by decide)).next (writes_refer _ _) (by decide)

/-- After the directives on a type are taken in, what they require or the keys among them are recorded. -/
theorem writes_takeInType_later (t : TypeDefinition) (old? : Option TypeEntry) :
    Writes [.ledger, .keySets]
      (s.takeIn setting t.kind.location t.name ((old?.map TypeEntry.directives).getD .empty) t.directives).2
      (s.takeInType setting t old?).2 := by
  unfold takeInType
  dsimp only
  cases t.kind with
  | enum | scalar => exact (writes_authorize ..).mono (by decide)
  | object | interface => exact (writes_recordKeys ..).mono (by decide)
  | inputObject | union => exact .refl _

theorem writes_takeInType (t : TypeDefinition) (old? : Option TypeEntry) :
    Writes [.errors, .repeats, .ledger, .keySets] s (s.takeInType setting t old?).2 :=
  .next ((writes_takeIn setting s ..).mono (by decide)) (writes_takeInType_later setting s t old?) (by decide)

theorem writes_sightSchema (d : SchemaDefinition) :
    Writes [.errors, .repeats, .schemaDirectives] s (s.sightSchema setting d) := by
  refine ⟨fun part out => ?_⟩
  cases part with
  | errors | repeats | schemaDirectives => exact absurd (by decide) out
  | _ => rfl

theorem writes_sightEnumValue (parent : String) (isExtension : Bool) (v : EnumValueDefinition) :
    Writes [.errors, .repeats, .types] s (s.sightEnumValue setting parent isExtension v) := by
  unfold sightEnumValue
  split
  · dsimp only
    split
    · exact (writes_report s _).mono (by decide)
    · exact ((writes_takeIn setting s ..).mono (by decide)).next (writes_reshape ..) (by decide)
  · exact .refl s

theorem writes_sightInputValue (parent : String) (isExtension : Bool) (v : InputValueDefinition) :
    Writes [.errors, .repeats, .types, .referenced] s (s.sightInputValue setting parent isExtension v) := by
  unfold sightInputValue
  split
  · dsimp only
    split
    · exact (writes_report s _).mono (by decide)
    · refine .next ?_ (writes_reshape ..) (by decide)
      exact ((writes_takeIn setting s ..).mono (by decide)).next (writes_refer ..) (by decide)
  · exact .refl s

end Steps

end Survey

end Federation
