import Federation.Proofs.Survey.Course

/-!
# What the steps of a survey leave alone

Most of what a survey records has nothing to do with types, requirements and concrete types. Errors are
only ever added, and repetitions are noted only together with an error.
-/

namespace Federation

open Schema

namespace Survey

/-- From one survey to the other errors may be added, and repetitions only together with them. -/
structure Grows (a b : Survey) : Prop where
  errors : a.errors <+: b.errors
  repeats : b.errors = [] → b.repeats = a.repeats

namespace Grows

theorem refl (a : Survey) : Grows a a := ⟨List.prefix_refl _, fun _ => rfl⟩

theorem clean {a b : Survey} (h : Grows a b) (none : b.errors = []) : a.errors = [] :=
  List.prefix_nil.mp (none ▸ h.errors)

theorem trans {a b c : Survey} (first : Grows a b) (second : Grows b c) : Grows a c where
  errors := first.errors.trans second.errors
  repeats none := by rw [second.repeats none, first.repeats (second.clean none)]

/-- A step that writes neither errors nor repetitions. -/
theorem of_writes {a b : Survey} {parts : List Part} (written : Writes parts a b)
    (errors : .errors ∉ parts) (repeats : .repeats ∉ parts) : Grows a b where
  errors := written.same .errors errors ▸ List.prefix_refl _
  repeats _ := written.same .repeats repeats

theorem foldl {α : Type} (step : Survey → α → Survey) (one : ∀ s x, Grows s (step s x)) (xs : List α)
    (s : Survey) : Grows s (xs.foldl step s) :=
  List.foldlRecOn xs step (refl s) fun s' before x _ => before.trans (one s' x)

end Grows

/-- From one survey to the other types, requirements and concrete types stay, and errors may be added. -/
structure Annotates (a b : Survey) : Prop where
  types : b.types = a.types
  ledger : b.ledger = a.ledger
  concrete : b.concrete = a.concrete
  grows : Grows a b

namespace Annotates

theorem refl (a : Survey) : Annotates a a := ⟨rfl, rfl, rfl, .refl a⟩

theorem trans {a b c : Survey} (first : Annotates a b) (second : Annotates b c) : Annotates a c where
  types := second.types.trans first.types
  ledger := second.ledger.trans first.ledger
  concrete := second.concrete.trans first.concrete
  grows := first.grows.trans second.grows

theorem foldl {α : Type} (step : Survey → α → Survey) (one : ∀ s x, Annotates s (step s x)) (xs : List α)
    (s : Survey) : Annotates s (xs.foldl step s) :=
  List.foldlRecOn xs step (refl s) fun s' before x _ => before.trans (one s' x)

/-- A step that writes neither what is seen here nor errors. -/
theorem of_writes {a b : Survey} {parts : List Part} (written : Writes parts a b)
    (apart : ∀ part ∈ [.types, .ledger, .concrete, .errors, .repeats], part ∉ parts) : Annotates a b where
  types := written.same .types (apart _ (by decide))
  ledger := written.same .ledger (apart _ (by decide))
  concrete := written.same .concrete (apart _ (by decide))
  grows := .of_writes written (apart _ (by decide)) (apart _ (by decide))

end Annotates

theorem annotates_reportAll (s : Survey) (es : List Error) : Annotates s (s.reportAll es) :=
  ⟨rfl, rfl, rfl, List.prefix_append _ _, fun _ => rfl⟩

theorem annotates_report (s : Survey) (e : Error) : Annotates s (s.report e) :=
  annotates_reportAll s [e]

theorem annotates_bindEvents (canonicalName field : String) (applied : AppliedDirectives)
    (arguments : Table String InputValue) (s : Survey) :
    Annotates s (s.bindEvents canonicalName field applied arguments) := by
  refine .foldl _ (fun s d => ?_) _ s
  split
  · exact annotates_report s _
  · exact .of_writes (writes_bindings s _) (by decide)

/-! ## The intake of directives -/

theorem errors_prefix_intake (setting : Setting) (location : Location) (hostPath : String)
    (applied : List Directive) (i : Intake) :
    i.errors <+: (applied.foldl (Intake.step setting location hostPath) i).errors := by
  induction applied generalizing i with
  | nil => exact List.prefix_refl _
  | cons d rest ih =>
    have one : i.errors <+: (Intake.step setting location hostPath i d).errors := by
      unfold Intake.step
      split
      · exact List.prefix_refl _
      · exact List.prefix_append _ _
      · split
        · exact List.prefix_append _ _
        · split <;> exact List.prefix_refl _
    exact one.trans (ih _)

/-- A judgment that leaves no error changes nothing about repetitions. -/
theorem repeats_judge (setting : Setting) (location : Location) (hostPath : String)
    (accepted : AppliedDirectives) (repeats : Repeats) (d : Directive)
    (unrefused : ∀ faults,
      (Intake.judge setting location hostPath accepted repeats d).1 ≠ .refused faults) :
    (Intake.judge setting location hostPath accepted repeats d).2 = repeats := by
  unfold Intake.judge at unrefused ⊢
  split at unrefused
  · exact absurd rfl (unrefused _)
  · dsimp only at unrefused ⊢
    split
    · rfl
    · split
      · rfl
      -- A first repetition is refused.
      · next fresh known => simp [fresh, known] at unrefused

theorem repeats_step (setting : Setting) (location : Location) (hostPath : String) (i : Intake)
    (d : Directive) (clean : (Intake.step setting location hostPath i d).errors = []) :
    (Intake.step setting location hostPath i d).repeats = i.repeats := by
  have kept := repeats_judge setting location hostPath i.accepted i.repeats d
  unfold Intake.step at clean ⊢
  split
  · next repeats judged => rw [judged] at kept; exact kept fun _ => nofun
  · next faults repeats judged => simp [judged] at clean
  · next repeats judged =>
    rw [judged] at kept
    have same : repeats = i.repeats := kept fun _ => nofun
    split
    · exact same
    · split <;> exact same

theorem repeats_intake (setting : Setting) (location : Location) (hostPath : String)
    (applied : List Directive) (i : Intake)
    (clean : (applied.foldl (Intake.step setting location hostPath) i).errors = []) :
    (applied.foldl (Intake.step setting location hostPath) i).repeats = i.repeats := by
  induction applied generalizing i with
  | nil => rfl
  | cons d rest ih =>
    have later := errors_prefix_intake setting location hostPath rest
      (Intake.step setting location hostPath i d)
    have now : (Intake.step setting location hostPath i d).errors = [] :=
      List.prefix_nil.mp (clean ▸ later)
    rw [List.foldl_cons, ih _ clean, repeats_step setting location hostPath i d now]

theorem annotates_takeIn (setting : Setting) (location : Location) (hostPath : String)
    (accepted : AppliedDirectives) (applied : List Directive) (s : Survey) :
    Annotates s (s.takeIn setting location hostPath accepted applied).2 := by
  refine ⟨rfl, rfl, rfl, List.prefix_append _ _, fun clean => ?_⟩
  have quiet : (Intake.run setting location hostPath accepted s.repeats applied).errors = [] :=
    (List.append_eq_nil_iff.mp clean).2
  exact repeats_intake setting location hostPath applied _ quiet

theorem annotates_sightArgument (setting : Setting) (kind : TypeKind) (parent field : String)
    (acc : Table String InputValue × Survey) (a : InputValueDefinition) :
    Annotates acc.2 (sightArgument setting kind parent field acc a).2 := by
  obtain ⟨arguments, s⟩ := acc
  unfold sightArgument
  dsimp only
  split
  · exact annotates_report s _
  · exact (annotates_takeIn setting _ _ _ _ s).trans (.of_writes (writes_refer ..) (by decide))

theorem annotates_sightArguments (setting : Setting) (kind : TypeKind) (parent field : String)
    (arguments : List InputValueDefinition) (acc : Table String InputValue × Survey) :
    Annotates acc.2 (arguments.foldl (sightArgument setting kind parent field) acc).2 := by
  induction arguments generalizing acc with
  | nil => exact .refl _
  | cons a rest ih => exact (annotates_sightArgument setting kind parent field acc a).trans (ih _)

end Survey

end Federation
