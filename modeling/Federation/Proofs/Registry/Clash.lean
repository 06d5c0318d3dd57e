import Federation.Proofs.Survey.Report

/-!
# Sightings that clash

The first sighting of a type settles its kind. A later one of another kind is reported and changes nothing else: the
survey after it is the survey before it with one more error.
-/

namespace Federation

open Schema

namespace Error

/-- The type that an error is about, where it is about a sighting as a whole. -/
def sighted? : Error → Option String
  | conflictingKinds typeName .. | duplicateType _ typeName => some typeName
  | _ => none

/-- Errors of other stages are not about sightings. -/
theorem not_sighted_of_stage (typeName : String) {stage : Stage} (other : stage ≠ .sighting) (e : Error)
    (here : e.stage = stage) : decide (e.sighted? = some typeName) = false := by
  cases e <;> first | rfl | exact absurd here.symm other

/-- Whether a type is said to be sighted with two kinds. -/
def isConflictOf (typeName : String) : Error → Bool
  | conflictingKinds name .. => name = typeName
  | _ => false

theorem isConflictOf_eq_false {e : Error} {typeName : String} (other : e.sighted? ≠ some typeName) :
    e.isConflictOf typeName = false := by
  cases e <;> simp_all [isConflictOf, sighted?]

end Error

namespace TypeEntry

/-! ## Entries and one more sighting -/

variable {entry : TypeEntry} {x : Sighting}

theorem grown_of_other {setting : Setting} (other : entry.kind ≠ x.type.kind) :
    grown setting (some entry) x = some entry := by
  simp [grown, other]

theorem hasBase_joined_none (setting : Setting) (isExtension : Bool) (t : TypeDefinition) :
    (joined setting isExtension t none).hasBase = !isExtension := by
  rw [joined_none, hasBase_joined]
  rfl

/-- A sighting of whatever kind leaves the kind of an entry. -/
theorem exists_grown_some (setting : Setting) (entry : TypeEntry) (x : Sighting) :
    ∃ entry', grown setting (some entry) x = some entry' ∧ entry'.kind = entry.kind := by
  by_cases same : entry.kind = x.type.kind
  · obtain ⟨entry', made, -, kind⟩ := exists_grown setting (some entry) x (by simpa using same)
    exact ⟨entry', made, kind.trans same.symm⟩
  · exact ⟨entry, grown_of_other same, rfl⟩

theorem kind_foldl_grown (setting : Setting) (xs : List Sighting) (entry : TypeEntry) :
    (xs.foldl (grown setting) (some entry)).map TypeEntry.kind = some entry.kind := by
  induction xs generalizing entry with
  | nil => rfl
  | cons x rest ih =>
    obtain ⟨entry', made, kind⟩ := exists_grown_some setting entry x
    rw [List.foldl_cons, made, ih, kind]

/-- The first sighting settles the kind. -/
theorem kind_ofSightings (setting : Setting) (xs : List Sighting) :
    (ofSightings setting xs).map TypeEntry.kind = xs.head?.map (·.type.kind) := by
  cases xs with
  | nil => rfl
  | cons x rest =>
    obtain ⟨entry, made, -, kind⟩ := exists_grown setting none x nofun
    rw [ofSightings, List.foldl_cons, made, kind_foldl_grown, kind]
    rfl

end TypeEntry

/-! ## What a sighting makes wrong -/

namespace Sighting

/-- The error that a sighting makes of its type as a whole, given the entry that there is. -/
def clash? (typeName : String) (old? : Option TypeEntry) (x : Sighting) : Option Error :=
  old?.bind fun old =>
    if old.kind = x.type.kind then
      if old.hasBase && !x.isExtension then some (.duplicateType old.kind typeName) else none
    else some (.conflictingKinds typeName old.kind x.type.kind)

/-- The errors that sightings make of their type, one after the other. -/
def clashes (setting : Setting) (typeName : String) : Option TypeEntry → List Sighting → List Error
  | _, [] => []
  | old?, x :: rest => (clash? typeName old? x).toList ++ clashes setting typeName (TypeEntry.grown setting old? x) rest

/-- The errors that tell of sightings of another kind than the first one has. -/
def conflicts (typeName : String) : List Sighting → List Error
  | [] => []
  | first :: later => (later.filter (·.type.kind ≠ first.type.kind)).map fun x =>
      .conflictingKinds typeName first.type.kind x.type.kind

theorem filter_clash?_isConflictOf (typeName : String) (entry : TypeEntry) (x : Sighting) :
    (clash? typeName (some entry) x).toList.filter (·.isConflictOf typeName) =
      if x.type.kind ≠ entry.kind then [.conflictingKinds typeName entry.kind x.type.kind] else [] := by
  by_cases same : entry.kind = x.type.kind
  · simp only [clash?, Option.bind_some, same, if_true, ne_eq, not_true, if_false]
    split <;> simp [Error.isConflictOf]
  · simp [clash?, same, Ne.symm same, Error.isConflictOf]

theorem filter_clashes_some (setting : Setting) (typeName : String) (entry : TypeEntry) (xs : List Sighting) :
    (clashes setting typeName (some entry) xs).filter (·.isConflictOf typeName) =
      (xs.filter (·.type.kind ≠ entry.kind)).map fun x => .conflictingKinds typeName entry.kind x.type.kind := by
  induction xs generalizing entry with
  | nil => rfl
  | cons x rest ih =>
    obtain ⟨entry', made, kind⟩ := TypeEntry.exists_grown_some setting entry x
    rw [clashes, made, List.filter_append, filter_clash?_isConflictOf, ih, kind, List.filter_cons]
    split <;> simp_all

theorem filter_clashes_none (setting : Setting) (typeName : String) (xs : List Sighting) :
    (clashes setting typeName none xs).filter (·.isConflictOf typeName) = conflicts typeName xs := by
  cases xs with
  | nil => rfl
  | cons first later =>
    obtain ⟨entry, made, -, kind⟩ := TypeEntry.exists_grown setting none first nofun
    rw [clashes, made, List.filter_append, filter_clashes_some, kind]
    rfl

end Sighting

namespace Survey

/-- The errors about sightings of a type as a whole. -/
def clashesOf (typeName : String) (s : Survey) : List Error := s.errors.filter (·.sighted? = some typeName)

variable (setting : Setting) (s : Survey) (typeName : String)

theorem clashesOf_of_declares {s s' : Survey} (declared : Declares s s') :
    s'.clashesOf typeName = s.clashesOf typeName :=
  declared.filter_errors (Error.not_sighted_of_stage typeName (by decide))

theorem clashesOf_report (e : Error) : (s.report e).clashesOf typeName =
    s.clashesOf typeName ++ if e.sighted? = some typeName then [e] else [] := by
  rw [clashesOf, report, List.filter_append, clashesOf, List.filter_singleton]
  simp

theorem clashesOf_merge (isExtension : Bool) (t : TypeDefinition) : (s.merge setting isExtension t).clashesOf typeName =
    s.clashesOf typeName ++
      if (s.types.get? t.name).any TypeEntry.hasBase && !isExtension && t.name = typeName then
        [.duplicateType t.kind t.name] else [] := by
  obtain ⟨found, here, added⟩ := errors_merge setting s isExtension t
  have silent : found.filter (·.sighted? = some typeName) = [] :=
    here.filter_eq_nil (Error.not_sighted_of_stage typeName (by decide))
  rw [clashesOf, added, List.filter_append, List.filter_append, silent, List.append_nil, ← clashesOf]
  cases (s.types.get? t.name).any TypeEntry.hasBase && !isExtension with
  | false => rfl
  | true => simp [List.filter_singleton, Error.sighted?]

/-- A sighting of a type that clashes with what is registered is reported, and nothing else is changed. -/
theorem sightType_of_conflict {t : TypeDefinition} {kind : TypeKind} (walked : isReservedType t = false)
    (known : s.types.kind? t.name = some kind) (other : kind ≠ t.kind) (isExtension : Bool) :
    s.sightType setting isExtension t = s.report (.conflictingKinds t.name kind t.kind) := by
  simp [sightType, walked, known, other]

theorem sightType_of_accepted {t : TypeDefinition} (walked : isReservedType t = false)
    (same : ∀ kind ∈ s.types.kind? t.name, kind = t.kind) (isExtension : Bool) :
    s.sightType setting isExtension t = (s.merge setting isExtension t).sightChildren setting isExtension t := by
  unfold sightType
  rw [walked, if_neg Bool.false_ne_true]
  cases known : s.types.kind? t.name with
  | none => rfl
  | some kind => exact if_pos (same kind known)

theorem clashesOf_sightType (isExtension : Bool) (t : TypeDefinition) :
    (s.sightType setting isExtension t).clashesOf typeName = s.clashesOf typeName ++
      if t.name = typeName && !isReservedType t then
        (Sighting.clash? typeName (s.types.get? typeName) ⟨isExtension, t⟩).toList else [] := by
  cases walked : isReservedType t with
  | true => simp [sightType, walked]
  | false =>
    by_cases accepted : ∀ kind ∈ s.types.kind? t.name, kind = t.kind
    · -- What stands inside the type is declared, so the merge alone can report a second base definition.
      rw [sightType_of_accepted setting s walked accepted,
        clashesOf_of_declares typeName (declares_sightChildren setting _ isExtension t), clashesOf_merge]
      by_cases here : t.name = typeName
      · subst here
        cases found : s.types.get? t.name with
        | none => simp [Sighting.clash?]
        | some old =>
          have same : old.kind = t.kind := accepted _ (by simp [Registry.kind?, found])
          simp only [Sighting.clash?, Option.bind_some, same, if_true, Option.any_some, decide_true, Bool.and_true,
            Bool.not_false]
          split <;> rfl
      · simp [here]
    · push Not at accepted
      obtain ⟨kind, known, other⟩ := accepted
      rw [sightType_of_conflict setting s walked known other, clashesOf_report]
      by_cases here : t.name = typeName
      · subst here
        obtain ⟨old, found, rfl⟩ := Option.map_eq_some_iff.mp known
        simp [Error.sighted?, Sighting.clash?, found, other]
      · simp [Error.sighted?, here]

/-- A statement makes the errors of a type that it is a sighting of, and no others. -/
theorem clashesOf_step (x : Statement) : (s.step setting x).clashesOf typeName = s.clashesOf typeName ++
    (x.sighting? typeName).toList.flatMap fun y => (Sighting.clash? typeName (s.types.get? typeName) y).toList := by
  rcases x with (d | d | t) | d | t
  case define.type | extendType =>
    refine (clashesOf_sightType setting s typeName _ t).trans ?_
    dsimp only [Statement.sighting?]
    split <;> simp
  case define.directive => exact (List.append_nil _).symm
  all_goals
    refine (clashesOf_of_declares typeName ?_).trans (List.append_nil _).symm
    exact declares_sightSchema setting s d

/-- The errors about the sightings of a type are what these make of it, in their order. -/
theorem clashesOf_walk (errors : List Error) (statements : List Statement) :
    (walk setting errors statements).clashesOf typeName =
      errors.filter (·.sighted? = some typeName) ++
        Sighting.clashes setting typeName none (Sighting.all statements typeName) := by
  -- The entry of the type grows along with the errors, so both are followed from any survey on.
  have fold : ∀ s : Survey, (statements.foldl (step setting) s).clashesOf typeName = s.clashesOf typeName ++
      Sighting.clashes setting typeName (s.types.get? typeName) (Sighting.all statements typeName) := by
    induction statements with
    | nil => exact fun s => (List.append_nil _).symm
    | cons x rest ih =>
      intro s
      rw [List.foldl_cons, ih, clashesOf_step, get?_step, Sighting.all, Sighting.all, List.filterMap_cons]
      cases x.sighting? typeName with
      | none => simp
      | some y => simp [Sighting.clashes]
  exact fold (start errors)

end Survey

/-- Of all that a normalization reports, the errors about the sightings of a type are those that they make of it. -/
theorem clashes_normalize (options : NormalizationOptions) (statements : List Statement) (typeName : String) :
    (normalize options statements).diagnostics.errors.filter (·.sighted? = some typeName) =
      Sighting.clashes (Assembly.of options.subgraph options.maxOrScopes statements).setting typeName none
        (Sighting.all statements typeName) := by
  have blind {stage : Stage} (other : stage ≠ .sighting) := Error.not_sighted_of_stage typeName other
  have before := (Setting.finds_of options.subgraph options.maxOrScopes statements).filter_eq_nil (blind (by decide))
  rw [filter_normalize _ _ (blind (by decide)), Assembly.filter_errors _ (blind (by decide)) (blind (by decide))]
  refine (Survey.clashesOf_walk (Setting.of options.subgraph options.maxOrScopes statements).1 typeName
    (Setting.of options.subgraph options.maxOrScopes statements).2 statements).trans ?_
  rw [before, List.nil_append]
  rfl

/-- So it is with some of these errors. -/
theorem filter_clashes_normalize (options : NormalizationOptions) (statements : List Statement) {typeName : String}
    {view : Error → Bool} (narrow : ∀ e, e.sighted? ≠ some typeName → view e = false) :
    (normalize options statements).diagnostics.errors.filter view =
      (Sighting.clashes (Assembly.of options.subgraph options.maxOrScopes statements).setting typeName none
        (Sighting.all statements typeName)).filter view := by
  rw [← clashes_normalize, List.filter_filter]
  refine List.filter_congr fun e _ => ?_
  by_cases sighted : e.sighted? = some typeName
  · simp [sighted]
  · simp [narrow e sighted]

namespace Survey

variable {setting : Setting} {s : Survey} {typeName : String} {x : Statement} {y : Sighting}

theorem step_of_conflict {kind : TypeKind} (sights : x.sighting? typeName = some y)
    (known : s.types.kind? typeName = some kind) (other : y.type.kind ≠ kind) :
    s.step setting x = s.report (.conflictingKinds typeName kind y.type.kind) := by
  rcases x with (_ | _ | t) | _ | t
  case define.type | extendType =>
    dsimp only [Statement.sighting?] at sights
    split at sights
    · next walked =>
      obtain rfl := Option.some.inj sights
      simp only [Bool.and_eq_true, decide_eq_true_eq, Bool.not_eq_true'] at walked
      obtain ⟨rfl, walked⟩ := walked
      exact sightType_of_conflict setting s walked known (Ne.symm other) _
    · nomatch sights
  all_goals nomatch sights

/-- A type is registered with the kind of its first sighting, if there was one. -/
theorem kind?_walk (setting : Setting) (errors : List Error) (statements : List Statement) (typeName : String) :
    (walk setting errors statements).types.kind? typeName =
      (Sighting.all statements typeName).head?.map (·.type.kind) := by
  rw [Registry.kind?, get?_walk, TypeEntry.kind_ofSightings]

end Survey

/-- A type has the kind of its first sighting. Of later sightings just those of another kind are reported as in conflict
with it, each once and in their order, and the survey up to such a sighting is left as it is but for the report: the
registry, requirements, keys, concrete and referenced types, overrides, events and what is said about membership. -/
theorem conflicting_sightings_rejected (options : NormalizationOptions) (statements : List Statement)
    (typeName : String) :
    let a := Assembly.of options.subgraph options.maxOrScopes statements
    let found := (Setting.of options.subgraph options.maxOrScopes statements).2
    a.types.kind? typeName = (Sighting.all statements typeName).head?.map (·.type.kind) ∧
      (normalize options statements).diagnostics.errors.filter (·.isConflictOf typeName) =
        Sighting.conflicts typeName (Sighting.all statements typeName) ∧
      ∀ before x after, statements = before ++ x :: after →
        ∀ first ∈ (Sighting.all before typeName).head?, ∀ y ∈ x.sighting? typeName,
          y.type.kind ≠ first.type.kind →
            Survey.walk a.setting found (before ++ [x]) =
              (Survey.walk a.setting found before).report
                (.conflictingKinds typeName first.type.kind y.type.kind) := by
  refine ⟨Survey.kind?_walk .., ?_, ?_⟩
  · rw [filter_clashes_normalize _ _ fun _ => Error.isConflictOf_eq_false, Sighting.filter_clashes_none]
  · -- Up to this sighting, too, the type has the kind of its first sighting.
    intro before x after whole first started y sights other
    have known := Survey.kind?_walk (Assembly.of options.subgraph options.maxOrScopes statements).setting
      (Setting.of options.subgraph options.maxOrScopes statements).2 before typeName
    rw [Option.mem_def.mp started, Option.map_some] at known
    rw [Survey.walk, List.foldl_append]
    exact Survey.step_of_conflict sights known other

/-- An object, then a scalar of the same name with a directive, then an extension of the object. -/
def objectThenScalar : List Statement :=
  [.define (.type ⟨"T", none, [], .object [] [⟨"a", none, [], .named "Int" false, []⟩]⟩),
    .define (.type ⟨"T", none, [⟨Vocabulary.authenticated, []⟩], .scalar⟩),
    .extendType ⟨"T", none, [], .object [] [⟨"b", none, [], .named "Int" false, []⟩]⟩]

/-- The scalar is no leaf and requires nothing. -/
theorem conflicting_sightings_rejected_scalar :
    let a := Assembly.of "s" 16 objectThenScalar
    a.types.kind? "T" = some .object ∧
      (normalize ⟨some "s", 16, false⟩ objectThenScalar).diagnostics.errors.filter (·.isConflictOf "T") =
        [.conflictingKinds "T" .object .scalar] ∧
      Survey.walk a.setting [] (objectThenScalar.take 2) =
        (Survey.walk a.setting [] (objectThenScalar.take 1)).report (.conflictingKinds "T" .object .scalar) := by
  obtain ⟨kind, reported, step⟩ := conflicting_sightings_rejected ⟨some "s", 16, false⟩ objectThenScalar "T"
  exact ⟨kind, reported, step (objectThenScalar.take 1) _ _ rfl _ rfl _ rfl (by decide)⟩

end Federation
