import Federation.Normalization.Survey
import Federation.Proofs.Normalization.Valid
import Federation.Proofs.Renaming.Registry

/-!
# Directives and root types under a renaming

The default root type of an operation gets another name, under which the schema declares it. Canonical names and
operations of types stay, and so does all that is made of the directives on a host.
-/

namespace Federation

open Schema

variable {ρ : Renaming} {own : Operation}

/-! ## Root types -/

/-- Whether a name stays, or belongs to the default root type of an operation. -/
def Renaming.Settles (ρ : Renaming) (own : Operation) (name : String) : Prop :=
  name = own.defaultTypeName ∨ ρ name = name

/-- Whether the root type of one operation gets the default name of another one, which has no root type. -/
structure RootTypes.Yields (ρ : Renaming) (own : Operation) (roots : RootTypes) (operation : Operation) : Prop where
  gained : ρ own.defaultTypeName = operation.defaultTypeName
  byOperation : roots.byOperation.get? operation = none
  byTypeName : ∀ name, roots.byTypeName.get? name ≠ some operation

/-- Root types before and after the one of an operation is renamed. -/
structure RootTypes.Mirrors (ρ : Renaming) (own : Operation) (roots roots' : RootTypes) : Prop where
  moved : ρ own.defaultTypeName ≠ own.defaultTypeName
  others : ∀ operation, operation ≠ own →
    ρ operation.defaultTypeName = operation.defaultTypeName ∨ roots.Yields ρ own operation
  byOperation : ∀ operation, operation ≠ own →
    roots'.byOperation.get? operation = (roots.byOperation.get? operation).map ρ
  byTypeName : ∀ name, name ≠ own.defaultTypeName → roots'.byTypeName.get? (ρ name) = roots.byTypeName.get? name
  declared : ∀ name, roots.byOperation.get? own = some name → name = own.defaultTypeName
  root : ∀ operation, roots.byTypeName.get? own.defaultTypeName = some operation → operation = own
  declared' : roots'.byOperation.get? own = some (ρ own.defaultTypeName)
  root' : roots'.byTypeName.get? (ρ own.defaultTypeName) = some own

namespace RootTypes.Mirrors

variable {roots roots' : RootTypes} (h : roots.Mirrors ρ own roots') {name : String}

include h

theorem canonicalName (settled : ρ.Settles own name) : roots'.canonicalName (ρ name) = roots.canonicalName name := by
  by_cases root : name = own.defaultTypeName
  · subst root
    rcases roots.canonicalName_cases own.defaultTypeName with ⟨-, same⟩ | ⟨operation, declared, same⟩
    · simp only [RootTypes.canonicalName, h.root'] at same ⊢
      exact same.symm
    · rw [h.root operation declared] at same
      simp only [RootTypes.canonicalName, h.root'] at same ⊢
      exact same.symm
  · unfold RootTypes.canonicalName
    rw [h.byTypeName name root]
    cases roots.byTypeName.get? name with
    | none => exact settled.resolve_left root
    | some => rfl

theorem isRootName (settled : ρ.Settles own name) : roots'.isRootName (ρ name) = roots.isRootName name := by
  by_cases root : name = own.defaultTypeName
  · subst root
    have declared : roots'.byTypeName.contains (ρ own.defaultTypeName) = true :=
      Table.contains_iff.mpr (Table.mem_keys_of_get? h.root')
    have default : (Operation.ofDefaultTypeName? own.defaultTypeName).isSome = true := by cases own <;> rfl
    simp [RootTypes.isRootName, declared, default]
  · have declared : roots'.byTypeName.contains (ρ name) = roots.byTypeName.contains name := by
      rw [Bool.eq_iff_iff, Table.contains_iff, Table.contains_iff, ← Table.get?_isSome_iff, ← Table.get?_isSome_iff,
        h.byTypeName name root]
    rw [RootTypes.isRootName, declared, settled.resolve_left root, RootTypes.isRootName]

theorem operation? (settled : ρ.Settles own name) : roots'.operation? (ρ name) = roots.operation? name := by
  rw [RootTypes.operation?, h.isRootName settled, h.canonicalName settled, RootTypes.operation?]

end RootTypes.Mirrors

/-! ## Definitions of directives -/

@[simp]
theorem Schema.Value.fits_rename (name : String) (v : Value) : v.fits (ρ name) = v.fits name := by
  have texts : ρ name ∈ ["String", Vocabulary.fieldSetScalar, Vocabulary.scopeScalar] ↔
      name ∈ ["String", Vocabulary.fieldSetScalar, Vocabulary.scopeScalar] :=
    Renaming.mem_iff_of_keeps fun scalar member => ρ.keeps scalar (by revert member; revert scalar; decide)
  have scalar : ∀ scalar ∈ ["ID", "Boolean", "Int", "Float"], ρ name = scalar ↔ name = scalar := fun scalar member =>
    Renaming.eq_iff_of_keeps (ρ.keeps scalar (by revert member; revert scalar; decide))
  simp only [Value.fits, texts, scalar "ID" (by simp), scalar "Boolean" (by simp), scalar "Int" (by simp),
    scalar "Float" (by simp)]

@[simp]
theorem Schema.TypeRef.admits_rename (t : TypeRef) (v : Value) : (t.rename ρ).admits v = t.admits v := by
  induction t generalizing v with
  | named => simp [rename, admits]
  | list item nonNull ih =>
    have same : (item.rename ρ).admits = item.admits := funext ih
    simp only [rename, admits, same]

namespace DirectiveConformance

variable (d : Directive) (definition : DirectiveDefinition)

theorem argument?_rename (name : String) :
    (definition.rename ρ).argument? name = (definition.argument? name).map (·.rename ρ) := by
  simp only [DirectiveDefinition.argument?, DirectiveDefinition.rename, List.find?_map]
  rfl

theorem givenFaults_rename (arguments : List (String × Value)) : ∀ earlier : List String,
    givenFaults (definition.rename ρ) earlier arguments = [] ↔ givenFaults definition earlier arguments = [] := by
  induction arguments with
  | nil => exact fun _ => Iff.rfl
  | cons argument rest ih =>
    intro earlier
    simp only [givenFaults, List.append_eq_nil_iff, ih, argumentFault?, argument?_rename]
    refine and_congr_left' ?_
    split
    · exact Iff.rfl
    · cases definition.argument? argument.1 with
      | none => simp
      | some declared =>
        simp only [Option.map_some, ArgumentDefinition.rename, TypeRef.admits_rename]
        split <;> simp

theorem argumentFaults_rename : argumentFaults d (definition.rename ρ) = [] ↔ argumentFaults d definition = [] := by
  have missing (given : List String) : missing (definition.rename ρ) given = missing definition given := by
    simp [DirectiveConformance.missing, DirectiveDefinition.rename, List.filter_map, Function.comp_def,
      ArgumentDefinition.rename, ArgumentDefinition.isRequired]
  simp only [argumentFaults, List.append_eq_nil_iff, givenFaults_rename, missing]

end DirectiveConformance

theorem Catalogue.rename_directive {name : String} {definition : DirectiveDefinition}
    (known : directive? name = some definition) : definition.rename ρ = definition := by
  have kept : ∀ d ∈ all, ∀ typeName ∈ d.typeNames, typeName ∈ Vocabulary.keptNames := by decide +kernel
  have same : definition.rename ρ = definition.rename id := DirectiveDefinition.rename_congr fun typeName member =>
    ρ.keeps typeName (kept definition (List.mem_of_find?_eq_some known) typeName member)
  exact same.trans definition.rename_id

/-! ## Settings -/

/-- Settings of a subgraph before and after the root type of an operation is renamed. -/
structure Setting.Mirrors (ρ : Renaming) (own : Operation) (setting setting' : Setting) : Prop where
  subgraph : setting'.subgraph = setting.subgraph
  maxOrScopes : setting'.maxOrScopes = setting.maxOrScopes
  applied : setting'.applied = setting.applied
  roots : setting.roots.Mirrors ρ own setting'.roots
  customDirectives : setting'.customDirectives = setting.customDirectives.map fun _ d => d.rename ρ

namespace Setting.Mirrors

variable {setting setting' : Setting} (h : setting.Mirrors ρ own setting')

include h

theorem isVersionTwo : setting'.isVersionTwo = setting.isVersionTwo := by
  rw [Setting.isVersionTwo, h.applied, Setting.isVersionTwo]

theorem isEventDriven : setting'.isEventDriven = setting.isEventDriven := by
  rw [Setting.isEventDriven, Setting.eventDirectives, h.applied, Setting.isEventDriven, Setting.eventDirectives]

theorem directive? (name : String) : setting'.directive? name = (setting.directive? name).map (·.rename ρ) := by
  unfold Setting.directive?
  rw [h.customDirectives, Table.get?_map]
  cases known : Catalogue.directive? name with
  | none => rfl
  | some definition => exact congrArg some (Catalogue.rename_directive known).symm

theorem operation? {kind : TypeKind} {name : String} (settled : ρ.Settles own name) :
    setting'.operation? kind (ρ name) = setting.operation? kind name := by
  rw [Setting.operation?, h.roots.operation? settled, Setting.operation?]

end Setting.Mirrors

/-! ## Intake -/

theorem Renaming.hostDirective_injective (ρ : Renaming) :
    Function.Injective fun e : String × String => (ρ e.1, e.2) := fun _ _ same =>
  have ⟨hosts, directives⟩ := Prod.mk.inj same
  Prod.ext (ρ.injective hosts) directives

abbrev Repeats.rename (ρ : Renaming) (repeats : Repeats) : Repeats :=
  OrderedSet.map repeats (fun e => (ρ e.1, e.2)) ρ.hostDirective_injective

/-- Verdicts that are the same but for what the faults name. -/
inductive Verdict.Alike : (verdict verdict' : Verdict) → Prop
  | valid : Alike .valid .valid
  | ignored : Alike .ignored .ignored
  | refused (faults faults' : List DirectiveFault) : Alike (.refused faults) (.refused faults')

/-- What is made of the directives on a host and on the renamed host. -/
structure Intake.Mirrors (ρ : Renaming) (i i' : Intake) : Prop where
  accepted : i'.accepted = i.accepted
  setAside : i'.setAside = i.setAside
  repeats : i'.repeats = i.repeats.rename ρ
  errors : i'.errors = [] ↔ i.errors = []

namespace Intake

variable {setting setting' : Setting} (h : setting.Mirrors ρ own setting') (location : Location) (hostPath : String)

include h

theorem judge_rename (accepted : AppliedDirectives) (repeats : Repeats) (d : Directive) :
    (judge setting location hostPath accepted repeats d).1.Alike
        (judge setting' location (ρ hostPath) accepted (repeats.rename ρ) d).1 ∧
      (judge setting' location (ρ hostPath) accepted (repeats.rename ρ) d).2 =
        (judge setting location hostPath accepted repeats d).2.rename ρ := by
  unfold judge
  rw [h.directive?]
  cases setting.directive? d.name with
  | none => exact ⟨.refused _ _, rfl⟩
  | some definition =>
    -- What was repeated on a host was repeated on the renamed host.
    have repeated : (repeats.rename ρ).contains (ρ hostPath, d.name) = repeats.contains (hostPath, d.name) :=
      OrderedSet.contains_map repeats (hostPath, d.name)
    have inserted : (repeats.rename ρ).insert (ρ hostPath, d.name) =
        Repeats.rename ρ (repeats.insert (hostPath, d.name)) :=
      OrderedSet.insert_map repeats (hostPath, d.name)
    simp only [Option.map_some, repeated, inserted, show (definition.rename ρ).isRepeatable = definition.isRepeatable
      from rfl, show (definition.rename ρ).locations = definition.locations from rfl, List.isEmpty_iff,
      List.append_eq_nil_iff, DirectiveConformance.argumentFaults_rename]
    by_cases misplaced : location ∈ definition.locations <;>
      by_cases faults : DirectiveConformance.argumentFaults d definition = [] <;>
      simp only [misplaced, faults, if_true, if_false, true_and, false_and, reduceCtorEq] <;>
      split <;> (try split) <;> exact ⟨by constructor, rfl⟩

theorem step_rename {i i' : Intake} (same : i.Mirrors ρ i') (d : Directive) :
    (step setting location hostPath i d).Mirrors ρ (step setting' location (ρ hostPath) i' d) := by
  have judged := judge_rename h location hostPath i.accepted i.repeats d
  unfold step
  rw [same.accepted, same.repeats]
  revert judged
  generalize judge setting location hostPath i.accepted i.repeats d = found
  generalize judge setting' location (ρ hostPath) i.accepted (i.repeats.rename ρ) d = found'
  obtain ⟨verdict, repeats⟩ := found
  obtain ⟨verdict', repeats'⟩ := found'
  rintro ⟨alike, rfl⟩
  cases alike with
  | ignored => exact ⟨rfl, same.setAside, rfl, same.errors⟩
  | refused => exact ⟨rfl, same.setAside, rfl, by simp⟩
  | valid =>
    have itself : overridesItself setting' d = overridesItself setting d := by
      rw [overridesItself, h.subgraph, overridesItself]
    simp only [itself]
    split
    · exact ⟨rfl, same.setAside, rfl, by simp⟩
    split
    · exact ⟨rfl, congrArg (· ++ [d]) same.setAside, rfl, same.errors⟩
    · exact ⟨rfl, same.setAside, rfl, same.errors⟩

theorem run_rename (accepted : AppliedDirectives) (repeats : Repeats) (applied : List Directive) :
    (run setting location hostPath accepted repeats applied).Mirrors ρ
      (run setting' location (ρ hostPath) accepted (repeats.rename ρ) applied) := by
  have fold : ∀ i i' : Intake, i.Mirrors ρ i' →
      (applied.foldl (step setting location hostPath) i).Mirrors ρ
        (applied.foldl (step setting' location (ρ hostPath)) i') := by
    induction applied with
    | nil => exact fun _ _ same => same
    | cons d rest ih => exact fun i i' same => ih _ _ (step_rename h location hostPath same d)
  exact fold _ _ ⟨rfl, rfl, rfl, Iff.rfl⟩

end Intake

namespace Intake.Mirrors

variable {i i' : Intake} (h : i.Mirrors ρ i')

include h

theorem hasExtends : i'.hasExtends = i.hasExtends := by rw [Intake.hasExtends, h.setAside, Intake.hasExtends]

theorem overridden : i'.overridden = i.overridden := by rw [Intake.overridden, h.setAside, Intake.overridden]

theorem authorization : i'.authorization = i.authorization := by
  rw [Intake.authorization, h.setAside, Intake.authorization]

end Intake.Mirrors

end Federation
