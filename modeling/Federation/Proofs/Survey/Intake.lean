import Federation.Proofs.Authorization.Declaration
import Federation.Proofs.Survey.Frame

/-!
# Intakes without errors

Where no repetition was noted before and nothing is reported, every application is in order. It is then
kept on its host or set aside, and authorization directives all go the same way.
-/

namespace Federation

open Schema

/-- What is reported of all its items at once is not reported just where there are none. -/
theorem ite_isEmpty_eq_nil_iff {α β : Type} {items : List α} {report : β} :
    (if items.isEmpty then [] else [report]) = [] ↔ items = [] := by
  cases items <;> simp

/-- An application is in order where its directive is defined, may stand there and has the arguments that
it needs. -/
def Setting.Allows (setting : Setting) (location : Location) (d : Directive) : Prop :=
  ∃ definition, setting.directive? d.name = some definition ∧ location ∈ definition.locations ∧
    DirectiveConformance.argumentFaults d definition = []

namespace Intake

/-- A valid application is in order, and it repeats no directive that may stand once. -/
theorem allows_of_valid {setting : Setting} {location : Location} {hostPath : String}
    {accepted : AppliedDirectives} {repeats : Repeats} {d : Directive}
    (valid : (judge setting location hostPath accepted repeats d).1 = .valid) :
    ∃ definition, setting.directive? d.name = some definition ∧ location ∈ definition.locations ∧
      DirectiveConformance.argumentFaults d definition = [] ∧
      (definition.isRepeatable = false → accepted.contains d.name = false) := by
  unfold judge at valid
  cases known : setting.directive? d.name with
  | none => simp [known] at valid
  | some definition =>
    simp only [known] at valid
    generalize faulty : (if location ∈ definition.locations then []
      else [DirectiveFault.misplaced hostPath location d.name definition.locations]) ++
      DirectiveConformance.argumentFaults d definition = faults at valid
    split at valid
    · next once =>
      cases faults with
      | nil =>
        obtain ⟨placed, arguments⟩ := List.append_eq_nil_iff.mp faulty
        have here : location ∈ definition.locations := by
          split at placed
          · assumption
          · exact absurd placed (List.cons_ne_nil _ _)
        exact ⟨definition, rfl, here, arguments, fun single => by simpa [single] using once⟩
      | cons fault rest => cases valid
    · -- A repetition is ignored or refused.
      split at valid
      · cases faults <;> cases valid
      · cases valid

theorem allows_of_judge (setting : Setting) (location : Location) (hostPath : String)
    (accepted : AppliedDirectives) (d : Directive)
    (unrefused : ∀ faults, (judge setting location hostPath accepted .empty d).1 ≠ .refused faults) :
    setting.Allows location d ∧ (judge setting location hostPath accepted .empty d).1 = .valid := by
  -- A directive that is not refused is valid, unless it was repeated before.
  have valid : (judge setting location hostPath accepted .empty d).1 = .valid := by
    unfold judge at unrefused ⊢
    cases known : setting.directive? d.name with
    | none => simp [known] at unrefused
    | some definition =>
      simp only [known] at unrefused ⊢
      generalize (if location ∈ definition.locations then []
        else [DirectiveFault.misplaced hostPath location d.name definition.locations]) ++
        DirectiveConformance.argumentFaults d definition = faults at unrefused ⊢
      split at unrefused
      · next once =>
        rw [if_pos once]
        cases faults with
        | nil => rfl
        | cons fault rest => exact absurd rfl (unrefused (fault :: rest))
      · -- Nothing was repeated before, so a repetition is reported.
        simp [OrderedSet.contains] at unrefused
  obtain ⟨definition, known, placed, arguments, -⟩ := allows_of_valid valid
  exact ⟨⟨definition, known, placed, arguments⟩, valid⟩

/-- An application that is met is kept, which takes that it is valid, or it is not. -/
theorem accepted_step (setting : Setting) (location : Location) (hostPath : String) (i : Intake) (d : Directive) :
    (step setting location hostPath i d).accepted = i.accepted ∨
      ((judge setting location hostPath i.accepted i.repeats d).1 = .valid ∧
        isSetAside location i.accepted d = false ∧
        (step setting location hostPath i d).accepted = i.accepted.add d) := by
  unfold step
  split
  · exact .inl rfl
  · exact .inl rfl
  · next judged =>
    split
    · exact .inl rfl
    · split
      · exact .inl rfl
      · next kept => exact .inr ⟨congrArg Prod.fst judged, Bool.eq_false_iff.mpr kept, rfl⟩

/-- What an application does that is in order. -/
theorem step_of_clean (setting : Setting) (location : Location) (hostPath : String) (i : Intake)
    (d : Directive) (fresh : i.repeats = .empty)
    (clean : (step setting location hostPath i d).errors = []) :
    setting.Allows location d ∧
      step setting location hostPath i d =
        if isSetAside location i.accepted d then { i with setAside := i.setAside ++ [d] }
        else { i with accepted := i.accepted.add d } := by
  -- Without errors the verdict is that the application is valid, since nothing was repeated before.
  have allowed := allows_of_judge setting location hostPath i.accepted d
  have kept := Survey.repeats_step setting location hostPath i d clean
  unfold step at clean kept ⊢
  rw [fresh] at clean kept ⊢
  rcases judged : judge setting location hostPath i.accepted .empty d with ⟨verdict, repeats⟩
  rw [judged] at allowed
  simp only [judged] at clean kept ⊢
  cases verdict with
  | ignored => exact absurd (allowed fun _ => nofun).2 nofun
  | refused faults => simp at clean
  | valid =>
    refine ⟨(allowed fun _ => nofun).1, ?_⟩
    dsimp only at clean kept ⊢
    split at clean
    · simp at clean
    · next proper =>
      rw [if_neg proper] at kept ⊢
      split <;> simp_all

/-- Where authorization directives go to the ledger they are set aside, and elsewhere they are kept. -/
theorem isSetAside_of_isAuthorization (location : Location) (accepted : AppliedDirectives) (d : Directive)
    (h : d.isAuthorization = true) : isSetAside location accepted d = goesToLedger location := by
  have names : d.name = Vocabulary.authenticated ∨ d.name = Vocabulary.requiresScopes := by
    simpa [Directive.isAuthorization] using h
  rcases names with name | name <;>
    simp [isSetAside, name, Vocabulary.authenticated, Vocabulary.requiresScopes,
      Vocabulary.extendsDirective, Vocabulary.override, Vocabulary.key]

/-- What an intake without errors adds to an intake before it. -/
structure Adds (setting : Setting) (location : Location) (applied : List Directive) (before after : Intake) :
    Prop where
  allowed : ∀ d ∈ applied, setting.Allows location d
  repeats : after.repeats = before.repeats
  authorization : after.authorization = before.authorization ++
    if goesToLedger location then applied.filter Directive.isAuthorization else []
  accepted : ∀ name ∈ [Vocabulary.authenticated, Vocabulary.requiresScopes],
    after.accepted.named name = before.accepted.named name ++
      if goesToLedger location then [] else applied.filter (·.name = name)

theorem authorization_setAside (i : Intake) (d : Directive) :
    ({ i with setAside := i.setAside ++ [d] } : Intake).authorization =
      i.authorization ++ if d.isAuthorization then [d] else [] := by
  change (i.setAside ++ [d]).filter Directive.isAuthorization =
    i.setAside.filter Directive.isAuthorization ++ _
  rw [List.filter_append, List.filter_cons]
  rfl

theorem adds_step (setting : Setting) (location : Location) (hostPath : String) (i : Intake)
    (d : Directive) (fresh : i.repeats = .empty)
    (clean : (step setting location hostPath i d).errors = []) :
    Adds setting location [d] i (step setting location hostPath i d) := by
  obtain ⟨allowed, same⟩ := step_of_clean setting location hostPath i d fresh clean
  have all : ∀ e ∈ [d], setting.Allows location e := by simpa using allowed
  rw [same]
  by_cases authorizes : d.isAuthorization = true
  · rw [isSetAside_of_isAuthorization location i.accepted d authorizes]
    -- Requirements go to the ledger where the location has a place in it, and stay with the directives elsewhere.
    cases there : goesToLedger location with
    | true =>
      refine ⟨all, rfl, ?_, by simp [there]⟩
      simp [there, authorization_setAside, authorizes]
    | false =>
      refine ⟨all, rfl, by simp [there, authorization], fun name _ => ?_⟩
      simp only [there, Bool.false_eq_true, if_false, AppliedDirectives.named_add]
      by_cases same : d.name = name
      · simp [same]
      · have other : ¬ name = d.name := fun h => same h.symm
        simp [same, other]
  · have other : ∀ name ∈ [Vocabulary.authenticated, Vocabulary.requiresScopes], ¬ d.name = name := by
      intro name member same
      exact authorizes (decide_eq_true (same ▸ member))
    split
    · refine ⟨all, rfl, ?_, fun name member => by simp [other name member]⟩
      simp [authorization_setAside, authorizes]
    · refine ⟨all, rfl, by simp [authorization, authorizes], fun name member => ?_⟩
      have other' : ¬ name = d.name := fun h => other name member h.symm
      simp [AppliedDirectives.named_add, other name member, other']

/-- What an intake without errors comes to. -/
theorem adds_run (setting : Setting) (location : Location) (hostPath : String)
    (applied : List Directive) (i : Intake) (fresh : i.repeats = .empty)
    (clean : (applied.foldl (step setting location hostPath) i).errors = []) :
    Adds setting location applied i (applied.foldl (step setting location hostPath) i) := by
  induction applied generalizing i with
  | nil => exact ⟨nofun, rfl, by simp, by simp⟩
  | cons d rest ih =>
    -- Errors stay, so that there were none after the first application either.
    have later := Survey.errors_prefix_intake setting location hostPath rest
      (step setting location hostPath i d)
    have first := adds_step setting location hostPath i d fresh (List.prefix_nil.mp (clean ▸ later))
    have tail := ih (step setting location hostPath i d) (first.repeats.trans fresh) clean
    refine ⟨?_, tail.repeats.trans first.repeats, ?_, fun name member => ?_⟩
    · intro e member
      rcases List.mem_cons.mp member with rfl | member
      · exact first.allowed e List.mem_cons_self
      · exact tail.allowed e member
    · rw [List.foldl_cons, tail.authorization, first.authorization, List.append_assoc]
      split <;> simp [List.filter_cons]
      split <;> rfl
    · rw [List.foldl_cons, tail.accepted name member, first.accepted name member, List.append_assoc]
      split <;> simp [List.filter_cons]
      split <;> rfl

end Intake

end Federation
