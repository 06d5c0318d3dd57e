import Federation.Proofs.Document.Legible
import Federation.Proofs.FieldSet.Use
import Federation.Proofs.Grammar.Yield

/-!
# External fields without use

Of the fields that another subgraph is said to resolve, just those are reported that nothing refers to, and each of them
is reported once: by an error or, under the first version of the rules, by a warning.
-/

namespace Federation

open Schema
open Grammar (Token)

/-! ## What is reported -/

namespace Assembly

/-- Whatever is reported of a text, its fields are tracked. -/
theorem tracked_of {text : String} {statements : List Statement}
    (read : Grammar.readStatements? text = some statements) (subgraph : String) (maxOrScopes : Nat) :
    (Assembly.of subgraph maxOrScopes statements).Tracked where
  keys := Survey.recordsKeys_walk ..
  fields := Survey.tracksFields_walk ((Setting.finds_of subgraph maxOrScopes statements).silent nofun nofun)
  plain typeName registered := by
    obtain ⟨c, composite⟩ := Option.isSome_iff_exists.mp registered
    obtain ⟨entry, found, -⟩ := Option.bind_eq_some_iff.mp composite
    exact Token.dot_notMem_of_isName (Survey.legible_walk (Grammar.isLegible_of_readStatements? read) found).1

variable (a : Assembly)

/-- Of all errors, only those for external fields tell of fields without use. -/
theorem reported_errors (silent : a.survey.reportedUnused = []) : a.errors.filterMap Error.unusedExternal? =
    if a.setting.isVersionTwo then a.unusedExternals else [] := by
  have last : (if a.setting.isVersionTwo then a.unusedExternals.map Error.unusedExternal else []).filterMap
      Error.unusedExternal? = if a.setting.isVersionTwo then a.unusedExternals else [] := by
    split
    · simp [List.filterMap_map, Function.comp_def, Error.unusedExternal?]
    · rfl
  -- The errors for unused fields come last, and all others before them are silent.
  rw [errors_eq, List.filterMap_append, List.filterMap_append, last,
    List.filterMap_eq_nil_iff.mpr (a.finds_ownErrors.silent nofun nofun), ← Survey.reportedUnused, silent]
  rfl

theorem silent_typeWarnings (typeName : String) (entry : TypeEntry) :
    ∀ w ∈ a.typeWarnings typeName entry, w.unusedExternal? = none := by
  unfold typeWarnings
  split
  · exact List.forall_mem_nil _
  · dsimp only
    split
    · exact List.forall_mem_nil _
    · exact List.forall_mem_singleton.mpr rfl

theorem reported_warnings : a.warnings.filterMap Warning.unusedExternal? =
    if a.setting.isVersionTwo then [] else a.unusedExternals := by
  have last : (if a.setting.isVersionTwo then [] else
      a.unusedExternals.map (Warning.unusedExternal a.setting.subgraph)).filterMap Warning.unusedExternal? =
        if a.setting.isVersionTwo then [] else a.unusedExternals := by
    split
    · rfl
    · simp [List.filterMap_map, Function.comp_def, Warning.unusedExternal?]
  rw [warnings, List.filterMap_append, last]
  refine (congrArg (· ++ _) (List.filterMap_eq_nil_iff.mpr ?_)).trans (List.nil_append _)
  simp only [List.forall_mem_append, List.forall_mem_flatMap, List.forall_mem_map]
  exact ⟨fun entry _ => a.silent_typeWarnings entry.1 entry.2, fun _ _ => rfl⟩

end Assembly

/-- The external fields that are reported as unused, by errors or by warnings. -/
def Diagnostics.unusedExternals (d : Diagnostics) : List String :=
  d.errors.filterMap Error.unusedExternal? ++ d.warnings.filterMap Warning.unusedExternal?

/-- Whether warnings are made errors or not, just the unused external fields are reported. -/
theorem unusedExternals_normalize {text : String} {statements : List Statement}
    (read : Grammar.readStatements? text = some statements) (options : NormalizationOptions) :
    (normalize options statements).diagnostics.unusedExternals =
      (Assembly.of options.subgraph options.maxOrScopes statements).unusedExternals := by
  have tracked := Assembly.tracked_of read options.subgraph options.maxOrScopes
  have errors := Assembly.reported_errors _ tracked.fields.reported
  have warnings := Assembly.reported_warnings (Assembly.of options.subgraph options.maxOrScopes statements)
  unfold normalize Diagnostics.unusedExternals
  dsimp only
  generalize Assembly.of options.subgraph options.maxOrScopes statements = a at errors warnings ⊢
  cases options.warningsAreFatal with
  | false =>
    rw [if_neg Bool.false_ne_true]
    dsimp only
    rw [errors, warnings]
    split <;> simp
  | true =>
    have promoted : (a.warnings.map Error.promoted).filterMap Error.unusedExternal? =
        a.warnings.filterMap Warning.unusedExternal? := List.filterMap_map ..
    -- Promoted warnings come behind the errors. Under either version only one of the two has unused fields.
    rw [if_pos rfl, Diagnostics.promoteWarnings]
    dsimp only
    rw [List.filterMap_append, errors, promoted, warnings]
    split <;> simp

open Classical in
/-- Of the fields of own objects and interfaces, just the external ones that nothing refers to are reported, each once:
by an error under the second version of the rules, and by a warning under the first. -/
theorem reported_iff_unused {text : String} {statements : List Statement}
    (read : Grammar.readStatements? text = some statements) (options : NormalizationOptions) {typeName name : String}
    {f : Field}
    (declared : (Assembly.of options.subgraph options.maxOrScopes statements).types.field? typeName name = some f)
    (own : (Assembly.of options.subgraph options.maxOrScopes statements).isSupportType typeName = false) :
    let a := Assembly.of options.subgraph options.maxOrScopes statements
    let found := (normalize options statements).diagnostics
    let path := coordinates typeName name
    found.unusedExternals.count path = (if a.types.IsUnused typeName name then 1 else 0) ∧
      (a.types.IsUnused typeName name →
        if a.setting.isVersionTwo then .unusedExternal path ∈ found.errors
        else if options.warningsAreFatal then .promoted (.unusedExternal options.subgraph path) ∈ found.errors
        else .unusedExternal options.subgraph path ∈ found.warnings) := by
  have unused := (Assembly.tracked_of read options.subgraph options.maxOrScopes).mem_unusedExternals declared own
  have once : (Assembly.of options.subgraph options.maxOrScopes statements).unusedExternals.Nodup :=
    (OrderedSet.nodup _).filter _
  dsimp only
  rw [unusedExternals_normalize read, once.count]
  refine ⟨if_congr unused rfl rfl, fun isUnused => ?_⟩
  have member := unused.mpr isUnused
  have subgraph := Assembly.subgraph_of options.subgraph options.maxOrScopes statements
  unfold normalize
  dsimp only
  generalize Assembly.of options.subgraph options.maxOrScopes statements = a at subgraph member ⊢
  -- The version of the rules tells an error from a warning, and warnings may be made errors at the end.
  cases versionTwo : a.setting.isVersionTwo with
  | true =>
    have error : Error.unusedExternal (coordinates typeName name) ∈ a.errors := by
      refine List.mem_append_right _ ?_
      rw [if_pos versionTwo]
      exact List.mem_map_of_mem member
    rw [if_pos rfl]
    split
    · exact List.mem_append_left _ error
    · exact error
  | false =>
    have warning : Warning.unusedExternal options.subgraph (coordinates typeName name) ∈ a.warnings := by
      refine List.mem_append_right _ ?_
      rw [versionTwo, if_neg Bool.false_ne_true, subgraph]
      exact List.mem_map_of_mem member
    rw [if_neg Bool.false_ne_true]
    split
    · exact List.mem_append_right _ (List.mem_map_of_mem warning)
    · exact warning

/-- A type with two external fields, of which its key selects the first. -/
def partlyUsedText : String := "type A @key(fields:\"i\")\x7bi:ID @external u:ID @external\x7d"

theorem reported_iff_unused_partly : ∃ statements, Grammar.readStatements? partlyUsedText = some statements ∧
    ¬ (Assembly.of "s" 16 statements).types.IsUnused "A" "i" ∧
    (Assembly.of "s" 16 statements).types.IsUnused "A" "u" ∧
    .unusedExternal "s" "A.u" ∈ (normalize ⟨some "s", 16, false⟩ statements).diagnostics.warnings := by
  have checked : (Grammar.readStatements? partlyUsedText).any (fun statements =>
      let a := Assembly.of "s" 16 statements
      (a.types.field? "A" "i").isSome && (a.types.field? "A" "u").isSome && !a.isSupportType "A" &&
        !a.setting.isVersionTwo &&
        decide ((normalize ⟨some "s", 16, false⟩ statements).diagnostics.unusedExternals = ["A.u"])) = true := by
    decide +kernel
  obtain ⟨statements, read, checked⟩ := Option.any_eq_true _ _ |>.mp checked
  simp only [Bool.and_eq_true, Bool.not_eq_true', decide_eq_true_eq, Option.isSome_iff_exists] at checked
  obtain ⟨⟨⟨⟨⟨i, declared⟩, u, declared'⟩, own⟩, versionOne⟩, reported⟩ := checked
  -- What was reported tells by the theorem which of the fields is of use.
  obtain ⟨never, -⟩ := reported_iff_unused read ⟨some "s", 16, false⟩ declared own
  obtain ⟨once, warned⟩ := reported_iff_unused read ⟨some "s", 16, false⟩ declared' own
  rw [reported] at never once
  have used : ¬ (Assembly.of "s" 16 statements).types.IsUnused "A" "i" := fun isUnused =>
    absurd (never.trans (if_pos isUnused)) (by decide)
  have unused : (Assembly.of "s" 16 statements).types.IsUnused "A" "u" := by
    by_contra isUsed
    exact absurd (once.trans (if_neg isUsed)) (by decide)
  have warning := warned unused
  simp only [NormalizationOptions.subgraph, Option.getD_some, versionOne, Bool.false_eq_true, if_false] at warning
  exact ⟨statements, read, used, unused, warning⟩

end Federation
