import Federation.Proofs.Normalization.Root
import Federation.Proofs.Registry.Clash

/-!
# Whether and how a type extends another

Of the sightings of a type those count that have the kind of the first. Whether one of them extends by keyword, whether
one of them does not, and what the first says by directive, is all that settles the extension of the type and how often
it is reported as defined twice.
-/

namespace Federation

open Schema

/-! ## Extending by directive -/

/-- Only objects and interfaces are extended by directive. -/
theorem Setting.Allows.extends_kind {setting : Setting} {kind : TypeKind} {d : Directive}
    (allowed : setting.Allows kind.location d) (named : d.name = Vocabulary.extendsDirective) :
    kind = .interface ∨ kind = .object := by
  obtain ⟨definition, defined, placed, -⟩ := allowed
  have catalogued : setting.directive? Vocabulary.extendsDirective =
      Catalogue.directive? Vocabulary.extendsDirective := rfl
  rw [named, catalogued] at defined
  obtain rfl := Option.some.inj defined
  revert placed
  cases kind <;> decide

namespace Intake

/-- Whether an application on a type extends a type of another subgraph. -/
def extendsBy (setting : Setting) (location : Location) (d : Directive) : Bool :=
  d.name = Vocabulary.extendsDirective && decide (setting.Allows location d)

variable {setting : Setting} {location : Location} {i : Intake} {d : Directive}

theorem admits_extends_iff (named : d.name = Vocabulary.extendsDirective)
    (never : i.accepted.contains Vocabulary.extendsDirective = false) :
    Admits setting location i.accepted d ↔ setting.Allows location d :=
  ⟨fun ⟨definition, defined, placed, sound, _⟩ => ⟨definition, defined, placed, sound⟩,
    fun ⟨definition, defined, placed, sound⟩ => ⟨definition, defined, placed, sound, fun _ => named ▸ never⟩⟩

/-- An application that extends is set aside, whether others were before it or not. -/
theorem hasExtends_step (never : i.accepted.contains Vocabulary.extendsDirective = false) (hostPath : String) :
    (step setting location hostPath i d).accepted.contains Vocabulary.extendsDirective = false ∧
      (step setting location hostPath i d).hasExtends = (i.hasExtends || extendsBy setting location d) := by
  by_cases named : d.name = Vocabulary.extendsDirective
  · have aside : isSetAside location i.accepted d = true := by simp [isSetAside, named]
    have other : overridesItself setting d = false := by
      unfold overridesItself
      rw [named]
      rfl
    by_cases allowed : setting.Allows location d
    · obtain ⟨accepted, setAside⟩ := step_of_admits ((admits_extends_iff named never).mpr allowed) hostPath
      rw [hasExtends, accepted, setAside]
      simp [aside, other, never, hasExtends, extendsBy, named, allowed]
    · obtain ⟨accepted, setAside⟩ := step_of_not_admits (mt (admits_extends_iff named never).mp allowed) hostPath
      rw [hasExtends, accepted, setAside]
      simp [never, hasExtends, extendsBy, allowed]
  · -- Another application may be kept or set aside, and either way it does not extend.
    have kept : (i.accepted.add d).contains Vocabulary.extendsDirective = false := by
      rw [Bool.eq_false_iff, ne_eq, Table.contains_iff] at never ⊢
      rw [AppliedDirectives.add, Table.mem_keys_upsert]
      exact not_or.mpr ⟨never, Ne.symm named⟩
    by_cases admitted : Admits setting location i.accepted d
    · obtain ⟨accepted, setAside⟩ := step_of_admits admitted hostPath
      rw [hasExtends, accepted, setAside]
      refine ⟨by split <;> assumption, ?_⟩
      split <;> simp [hasExtends, extendsBy, named]
    · obtain ⟨accepted, setAside⟩ := step_of_not_admits admitted hostPath
      rw [hasExtends, accepted, setAside]
      simp [never, hasExtends, extendsBy, named]

theorem hasExtends_run (hostPath : String) (accepted : AppliedDirectives) (repeats : Repeats) (applied : List Directive)
    (never : accepted.contains Vocabulary.extendsDirective = false) :
    (run setting location hostPath accepted repeats applied).hasExtends =
      applied.any (extendsBy setting location) := by
  have fold : ∀ i : Intake, i.accepted.contains Vocabulary.extendsDirective = false →
      (applied.foldl (step setting location hostPath) i).hasExtends =
        (i.hasExtends || applied.any (extendsBy setting location)) := by
    induction applied with
    | nil => simp
    | cons d rest ih =>
      intro i never
      obtain ⟨never', noted⟩ := hasExtends_step never hostPath
      rw [List.foldl_cons, ih _ never', noted, List.any_cons, Bool.or_assoc]
  exact fold _ never

end Intake

namespace Sighting

/-- A sighting of an object that is no root type, or of an interface, with an application that extends it, where the
first version of the rules is followed. -/
def ExtendsByDirective (setting : Setting) (x : Sighting) : Prop :=
  (x.type.kind = .object ∧ setting.roots.isRootName x.type.name = false ∨ x.type.kind = .interface) ∧
    setting.isVersionTwo = false ∧
    ∃ d ∈ x.type.directives, d.name = Vocabulary.extendsDirective ∧ setting.Allows x.type.kind.location d

instance (setting : Setting) (x : Sighting) : Decidable (x.ExtendsByDirective setting) :=
  inferInstanceAs <| Decidable <| _ ∧ _ ∧ ∃ d ∈ _, _ ∧ _

/-- The sightings that have the kind of the first. -/
def accepted : List Sighting → List Sighting
  | [] => []
  | first :: later => first :: later.filter (·.type.kind = first.type.kind)

theorem extendsByDirective_iff (setting : Setting) (x : Sighting) : x.ExtendsByDirective setting ↔
    (setting.operation? x.type.kind x.type.name).isSome = false ∧ setting.isVersionTwo = false ∧
      x.type.directives.any (Intake.extendsBy setting x.type.kind.location) = true := by
  have applied : x.type.directives.any (Intake.extendsBy setting x.type.kind.location) = true ↔
      ∃ d ∈ x.type.directives, d.name = Vocabulary.extendsDirective ∧ setting.Allows x.type.kind.location d := by
    simp [Intake.extendsBy]
  rw [applied]
  unfold ExtendsByDirective Setting.operation?
  refine and_congr_left fun ⟨_, d, _, named, allowed⟩ => ?_
  rcases allowed.extends_kind named with kind | kind <;> simp [kind, RootTypes.isSome_operation?]

/-- Whether and how a first sighting extends a type. -/
theorem extensionOf_first (setting : Setting) (x : Sighting) :
    Survey.extensionOf setting x.isExtension x.type (TypeEntry.intake setting x.type none) =
      if x.isExtension then .byKeyword else if x.ExtendsByDirective setting then .byDirective else .none := by
  have noted : (TypeEntry.intake setting x.type none).hasExtends =
      x.type.directives.any (Intake.extendsBy setting x.type.kind.location) :=
    Intake.hasExtends_run _ _ _ _ rfl
  unfold Survey.extensionOf
  rw [noted]
  refine if_congr Iff.rfl rfl ?_
  rw [if_congr (extendsByDirective_iff setting x) rfl rfl]
  cases (setting.operation? x.type.kind x.type.name).isSome <;> cases setting.isVersionTwo <;>
    cases x.type.directives.any (Intake.extendsBy setting x.type.kind.location) <;> rfl

end Sighting

namespace TypeEntry

/-- An entry of the kind of a first sighting whose extension follows from this one and the accepted ones. -/
structure Settled (setting : Setting) (first : Sighting) (accepted : List Sighting) (entry : TypeEntry) : Prop where
  kind : entry.kind = first.type.kind
  hasBase : entry.hasBase = accepted.any fun x => !x.isExtension
  extension : entry.extension =
    if accepted.any Sighting.isExtension then .byKeyword
    else if first.ExtendsByDirective setting then .byDirective else .none

variable {setting : Setting}

/-- Once a type is seen, a sighting changes its extension by keyword only. -/
theorem extension_joined_of_settled {entry : TypeEntry} (settled : entry.hasBase = true ∨ entry.extension = .byKeyword)
    (isExtension : Bool) (t : TypeDefinition) : (joined setting isExtension t (some entry)).extension =
      if isExtension then .byKeyword else entry.extension := by
  rw [extension_joined_eq, if_pos settled]

theorem settled_first (setting : Setting) (first : Sighting) :
    ∃ entry, grown setting none first = some entry ∧ entry.Settled setting first [first] := by
  obtain ⟨entry, made, around, kind⟩ := exists_grown setting none first nofun
  refine ⟨entry, made, kind, ?_, ?_⟩
  · rw [around.hasBase, hasBase_joined_none]
    simp
  · rw [around.extension, List.any_cons, List.any_nil, Bool.or_false]
    exact Sighting.extensionOf_first setting first

theorem Settled.grown {first : Sighting} {accepted : List Sighting} {entry : TypeEntry}
    (settled : entry.Settled setting first accepted) (some : accepted ≠ []) (x : Sighting) :
    ∃ entry', TypeEntry.grown setting (.some entry) x = .some entry' ∧
      entry'.Settled setting first (accepted ++ [x].filter (·.type.kind = first.type.kind)) := by
  by_cases same : entry.kind = x.type.kind
  · have counted : [x].filter (·.type.kind = first.type.kind) = [x] := by simp [← same, settled.kind]
    -- Each of the accepted sightings is a base or an extension by keyword.
    have seen : entry.hasBase = true ∨ entry.extension = .byKeyword := by
      obtain ⟨y, rest, rfl⟩ := List.exists_cons_of_ne_nil some
      rw [settled.hasBase, settled.extension]
      cases keyword : y.isExtension <;> simp [keyword]
    obtain ⟨entry', made, around, kind⟩ := exists_grown setting (.some entry) x (by simpa using same)
    refine ⟨entry', made, ?_⟩
    rw [counted]
    constructor
    case kind => rw [kind, ← same, settled.kind]
    case hasBase =>
      rw [around.hasBase, hasBase_joined, settled.hasBase]
      simp
    case extension =>
      rw [around.extension, extension_joined_of_settled seen, settled.extension, List.any_append]
      cases keyword : x.isExtension <;> simp [keyword]
  · refine ⟨entry, grown_of_other same, ?_⟩
    have refused : [x].filter (·.type.kind = first.type.kind) = [] := by simp [← settled.kind, Ne.symm same]
    rwa [refused, List.append_nil]

theorem Settled.foldl {first : Sighting} {accepted : List Sighting} {entry : TypeEntry}
    (settled : entry.Settled setting first accepted) (some : accepted ≠ []) (xs : List Sighting) :
    ∃ entry', xs.foldl (TypeEntry.grown setting) (.some entry) = .some entry' ∧
      entry'.Settled setting first (accepted ++ xs.filter (·.type.kind = first.type.kind)) := by
  induction xs generalizing entry accepted with
  | nil => exact ⟨entry, rfl, by rwa [List.filter_nil, List.append_nil]⟩
  | cons x rest ih =>
    obtain ⟨next, made, settled'⟩ := settled.grown some x
    obtain ⟨last, made', settled''⟩ := ih settled' (by simp [some])
    refine ⟨last, by rw [List.foldl_cons, made, made'], ?_⟩
    rwa [List.append_assoc, ← List.filter_append] at settled''

/-- Sightings settle whether and how their type extends another. -/
theorem exists_settled {xs : List Sighting} {entry : TypeEntry} (made : ofSightings setting xs = some entry) :
    ∃ first later, xs = first :: later ∧ entry.Settled setting first (Sighting.accepted xs) := by
  cases xs with
  | nil => nomatch made
  | cons first later =>
    obtain ⟨start, started, settled⟩ := settled_first setting first
    obtain ⟨last, ended, settled'⟩ := settled.foldl (List.cons_ne_nil _ _) later
    rw [ofSightings, List.foldl_cons, started, ended] at made
    obtain rfl := Option.some.inj made
    exact ⟨first, later, rfl, settled'⟩

theorem Settled.byKeyword_iff {first : Sighting} {accepted : List Sighting} {entry : TypeEntry}
    (settled : entry.Settled setting first accepted) :
    entry.extension = .byKeyword ↔ ∃ x ∈ accepted, x.isExtension = true := by
  rw [settled.extension, ← List.any_eq_true]
  split
  · next keyword => simp [keyword]
  · next none => split <;> simp [none]

/-- That a type extends by keyword is never taken back. -/
theorem byKeyword_foldl (setting : Setting) {entry : TypeEntry} (keyword : entry.extension = .byKeyword)
    (xs : List Sighting) :
    ∃ entry', xs.foldl (TypeEntry.grown setting) (some entry) = some entry' ∧ entry'.extension = .byKeyword := by
  induction xs generalizing entry with
  | nil => exact ⟨entry, rfl, keyword⟩
  | cons x rest ih =>
    rw [List.foldl_cons]
    by_cases same : entry.kind = x.type.kind
    · obtain ⟨entry', made, around, -⟩ := exists_grown setting (some entry) x (by simpa using same)
      rw [made]
      exact ih (around.extension.trans ((extension_joined ..).mpr (.inl keyword)))
    · rw [grown_of_other same]
      exact ih keyword

end TypeEntry

/-! ## Second base definitions -/

/-- Whether a type is said to have another base definition. -/
def Error.isDuplicateOf (typeName : String) : Error → Bool
  | duplicateType _ name => name = typeName
  | _ => false

theorem Error.isDuplicateOf_eq_false {e : Error} {typeName : String} (other : e.sighted? ≠ some typeName) :
    e.isDuplicateOf typeName = false := by
  cases e <;> simp_all [isDuplicateOf, sighted?]

namespace Sighting

/-- How many of these sightings are base definitions. -/
def bases (xs : List Sighting) : Nat := xs.countP fun x => !x.isExtension

variable (setting : Setting) (typeName : String)

theorem duplicates_clashes_some (entry : TypeEntry) (xs : List Sighting) :
    (clashes setting typeName (some entry) xs).filter (·.isDuplicateOf typeName) =
      List.replicate (bases (xs.filter (·.type.kind = entry.kind)) - if entry.hasBase then 0 else 1)
        (.duplicateType entry.kind typeName) := by
  induction xs generalizing entry with
  | nil => simp [clashes, bases]
  | cons x rest ih =>
    rw [clashes, List.filter_append, List.filter_cons]
    by_cases same : entry.kind = x.type.kind
    · obtain ⟨entry', made, around, kind⟩ := TypeEntry.exists_grown setting (some entry) x (by simpa using same)
      have hasBase : entry'.hasBase = (entry.hasBase || !x.isExtension) :=
        around.hasBase.trans (TypeEntry.hasBase_joined ..)
      rw [made, ih, kind, hasBase, ← same]
      -- A base definition counts as a second one where there was one before.
      cases based : entry.hasBase <;> cases keyword : x.isExtension <;>
        simp [clash?, bases, same, based, keyword, Error.isDuplicateOf, List.replicate_succ]
    · rw [TypeEntry.grown_of_other same, ih]
      simp [clash?, same, Ne.symm same, Error.isDuplicateOf]

theorem duplicates_clashes (first : Sighting) (later : List Sighting) :
    (clashes setting typeName none (first :: later)).filter (·.isDuplicateOf typeName) =
      List.replicate (bases (accepted (first :: later)) - 1) (.duplicateType first.type.kind typeName) := by
  obtain ⟨entry, made, settled⟩ := TypeEntry.settled_first setting first
  have hasBase : entry.hasBase = !first.isExtension := by simp [settled.hasBase]
  rw [clashes, made, List.filter_append, duplicates_clashes_some, settled.kind, hasBase]
  cases keyword : first.isExtension <;> simp [clash?, bases, accepted, keyword]

end Sighting

/-- Of all that a normalization reports, a type is said to be defined twice once for each base definition after the
first. -/
theorem duplicates_normalize (options : NormalizationOptions) (statements : List Statement) {typeName : String}
    {first : Sighting} {later : List Sighting} (sighted : Sighting.all statements typeName = first :: later) :
    (normalize options statements).diagnostics.errors.filter (·.isDuplicateOf typeName) =
      List.replicate (Sighting.bases (Sighting.accepted (first :: later)) - 1)
        (.duplicateType first.type.kind typeName) := by
  rw [filter_clashes_normalize _ _ fun _ => Error.isDuplicateOf_eq_false, sighted, Sighting.duplicates_clashes]

/-- Whether a type extends by keyword, whether it has a base definition, and how often it is reported as defined twice,
depends on which of its sightings have the kind of the first, and on which of these are extensions. Where none is, the
first one tells by directive whether it extends. No sighting takes back that a type extends by keyword. -/
theorem extension_tells_sightings (options : NormalizationOptions) (statements : List Statement) {typeName : String}
    {entry : TypeEntry}
    (registered : (Assembly.of options.subgraph options.maxOrScopes statements).types.get? typeName = some entry) :
    let a := Assembly.of options.subgraph options.maxOrScopes statements
    let found := (Setting.of options.subgraph options.maxOrScopes statements).2
    let accepted := Sighting.accepted (Sighting.all statements typeName)
    (entry.extension = .byKeyword ↔ ∃ x ∈ accepted, x.isExtension = true) ∧
      ((∀ x ∈ accepted, x.isExtension = false) → ∃ first ∈ accepted.head?,
        entry.extension = if first.ExtendsByDirective a.setting then .byDirective else .none) ∧
      (entry.hasBase = true ↔ ∃ x ∈ accepted, x.isExtension = false) ∧
      (normalize options statements).diagnostics.errors.filter (·.isDuplicateOf typeName) =
        List.replicate (Sighting.bases accepted - 1) (.duplicateType entry.kind typeName) ∧
      ∀ before middle after, statements = before ++ middle ++ after →
        ∀ earlier ∈ (Survey.walk a.setting found before).types.get? typeName, earlier.extension = .byKeyword →
          ∃ later ∈ (Survey.walk a.setting found (before ++ middle)).types.get? typeName,
            later.extension = .byKeyword := by
  have made : TypeEntry.ofSightings (Assembly.of options.subgraph options.maxOrScopes statements).setting
      (Sighting.all statements typeName) = some entry :=
    (Survey.get?_walk ..).symm.trans registered
  obtain ⟨first, later, sighted, settled⟩ := TypeEntry.exists_settled made
  have duplicates := duplicates_normalize options statements sighted
  dsimp only
  rw [sighted] at settled ⊢
  refine ⟨settled.byKeyword_iff, fun bases => ⟨first, rfl, ?_⟩, ?_, ?_, ?_⟩
  · have none : (Sighting.accepted (first :: later)).any Sighting.isExtension = false :=
      List.any_eq_false.mpr fun x member => by simp [bases x member]
    rw [settled.extension, none, if_neg Bool.false_ne_true]
  · simp [settled.hasBase]
  · rw [duplicates, settled.kind]
  -- The walk goes on from the entry that was there.
  · intro before middle after _ earlier known keyword
    rw [Survey.get?_walk, TypeEntry.ofSightings, Option.mem_def] at known
    obtain ⟨entry', grown, keyword'⟩ := TypeEntry.byKeyword_foldl
      (Assembly.of options.subgraph options.maxOrScopes statements).setting keyword (Sighting.all middle typeName)
    refine ⟨entry', ?_, keyword'⟩
    rw [Survey.get?_walk, TypeEntry.ofSightings, Sighting.all, List.filterMap_append, List.foldl_append,
      ← Sighting.all, known]
    exact grown

/-- An interface that is extended by directive, then a union of the same name, then another base definition. -/
def extendedTwice : List Statement :=
  [.define (.type ⟨"T", none, [⟨Vocabulary.extendsDirective, []⟩], .interface [] []⟩),
    .extendType ⟨"T", none, [], .union ["U"]⟩, .define (.type ⟨"T", none, [], .interface [] []⟩)]

/-- The union does not count, and the second interface does not extend. -/
theorem extension_tells_sightings_interface : ∃ entry, (Assembly.of "s" 16 extendedTwice).types.get? "T" = some entry ∧
    entry.extension = .byDirective ∧ entry.hasBase = true ∧
    (normalize ⟨some "s", 16, false⟩ extendedTwice).diagnostics.errors.filter (·.isDuplicateOf "T") =
      [.duplicateType entry.kind "T"] := by
  obtain ⟨entry, registered⟩ : ∃ entry, (Assembly.of "s" 16 extendedTwice).types.get? "T" = some entry :=
    Option.isSome_iff_exists.mp (by decide +kernel)
  obtain ⟨-, byFirst, hasBase, duplicates, -⟩ :=
    extension_tells_sightings ⟨some "s", 16, false⟩ extendedTwice registered
  obtain ⟨first, started, extension⟩ := byFirst (by decide +kernel)
  obtain rfl := Option.some.inj started
  refine ⟨entry, registered, extension.trans (if_pos (by decide +kernel)), hasBase.mpr ?_, duplicates⟩
  exact ⟨_, List.mem_cons_self, rfl⟩

end Federation
