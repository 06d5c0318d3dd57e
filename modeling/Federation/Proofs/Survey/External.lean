import Federation.Proofs.Survey.Key
import Federation.Proofs.Survey.Report

/-!
# External fields that a survey notes

At all times of a survey, whatever it has reported, the fields noted as external are those that the registry marks, and
the field sets noted for a field are those of the directives that it keeps. No external field is reported as unused
before the survey ends.
-/

namespace Federation

open Schema

/-- The field set of the first application of a directive. -/
def AppliedDirectives.fieldSet? (applied : AppliedDirectives) (directive : String) : Option String :=
  (applied.named directive).head?.bind (·.string? Vocabulary.fields)

/-- Where applications are only put behind others, a field set that is there stays. -/
theorem AppliedDirectives.Extends.fieldSet? {before after : AppliedDirectives} (extended : before.Extends after)
    {directive fieldSet : String} (written : before.fieldSet? directive = some fieldSet) :
    after.fieldSet? directive = some fieldSet := by
  obtain ⟨later, all⟩ := extended.named directive
  unfold AppliedDirectives.fieldSet? at written ⊢
  rw [← all]
  cases known : before.named directive with
  | nil => simp [known] at written
  | cons first rest => simpa [known] using written

theorem Intake.extends_kept (setting : Setting) (location : Location) (hostPath : String) (before : AppliedDirectives)
    (applied : List Directive) : before.Extends (kept setting location hostPath before applied) :=
  extends_run setting location hostPath applied ⟨before, [], .empty, []⟩

namespace Field

variable {setting : Setting} {parent : String} {isParentExternal : Bool} {existing? : Option Field}
  {f : FieldDefinition}

/-- The directives of a field after one more declaration. -/
def directivesWith (setting : Setting) (parent : String) (existing? : Option Field) (f : FieldDefinition) :
    AppliedDirectives :=
  Intake.kept setting .fieldDefinition (coordinates parent f.name) ((existing?.map Field.directives).getD .empty)
    f.directives

theorem directives_declared :
    (declared setting parent isParentExternal existing? f).directives = directivesWith setting parent existing? f := by
  cases existing? <;> rfl

/-- A field is external if it was before, or if its type is or a declaration up to now says so. -/
theorem isExternal_declared : (declared setting parent isParentExternal existing? f).isExternal =
    (existing?.any Field.isExternal ||
      (isParentExternal || (directivesWith setting parent existing? f).contains Vocabulary.external)) := by
  cases existing? <;> rfl

/-- A field set that is there is still that of the first application. -/
theorem fieldSet?_directivesWith (directive : String) :
    ((directivesWith setting parent existing? f).fieldSet? directive).or
        (existing?.bind (·.directives.fieldSet? directive)) =
      (directivesWith setting parent existing? f).fieldSet? directive := by
  cases written : existing?.bind (·.directives.fieldSet? directive) with
  | none => exact Option.or_none
  | some fieldSet =>
    obtain ⟨old, rfl, written⟩ := Option.bind_eq_some_iff.mp written
    have stays := (Intake.extends_kept setting .fieldDefinition (coordinates parent f.name) old.directives
      f.directives).fieldSet? written
    exact (congrArg (Option.or · _) stays).trans stays.symm

end Field

/-! ## Reports of unused fields -/

def Warning.unusedExternal? : Warning → Option String
  | .unusedExternal _ path => some path
  | _ => none

/-- The coordinates of the field that an error, or a warning that was made one, reports as external and unused. -/
def Error.unusedExternal? : Error → Option String
  | .unusedExternal path => some path
  | .promoted warning => warning.unusedExternal?
  | _ => none

/-- Fields without use are reported at one stage, but for warnings that are made errors. -/
theorem Stage.Finds.silent {stage : Stage} {es : List Error} (found : stage.Finds es) (unused : stage ≠ .use)
    (unpromoted : stage ≠ .promotion) : ∀ e ∈ es, e.unusedExternal? = none := by
  intro e member
  have here := found e member
  cases e with
  | unusedExternal => exact absurd here.symm unused
  | promoted => exact absurd here.symm unpromoted
  | _ => rfl

namespace Survey

/-- The external fields that are reported as unused. -/
def reportedUnused (s : Survey) : List String := s.errors.filterMap Error.unusedExternal?

/-! ## Steps that note nothing of fields -/

/-- From one survey to the other no external field and no field set of a field is noted, and no external field is
reported as unused. -/
structure KeepsFields (a b : Survey) : Prop where
  externals : b.externals = a.externals
  fieldSets : b.fieldSets = a.fieldSets
  reported : b.reportedUnused = a.reportedUnused

variable (setting : Setting) (s : Survey)

/-- No error of a declaration reports an external field as unused. -/
theorem Declares.reportedUnused {a b : Survey} (declared : Declares a b) : b.reportedUnused = a.reportedUnused := by
  obtain ⟨found, here, added⟩ := declared
  have silent := List.filterMap_eq_nil_iff.mpr (here.silent nofun nofun)
  rw [Survey.reportedUnused, added, List.filterMap_append, silent, List.append_nil, Survey.reportedUnused]

theorem KeepsFields.of_declares {a b : Survey} {parts : List Part} (written : Writes parts a b)
    (externals : .externals ∉ parts) (fieldSets : .fieldSets ∉ parts) (declared : Declares a b) : KeepsFields a b :=
  ⟨written.same .externals externals, written.same .fieldSets fieldSets, declared.reportedUnused⟩

theorem keepsFields_report (e : Error) (other : e.unusedExternal? = none) : KeepsFields s (s.report e) := by
  refine ⟨rfl, rfl, ?_⟩
  rw [reportedUnused, report, List.filterMap_append, List.filterMap_cons_none other, List.filterMap_nil,
    List.append_nil, reportedUnused]

theorem keepsFields_merge (isExtension : Bool) (t : TypeDefinition) :
    KeepsFields s (s.merge setting isExtension t) := by
  have written := writes_merge setting s isExtension t
  refine ⟨written.same .externals (by decide), written.same .fieldSets (by decide), ?_⟩
  obtain ⟨found, here, errors⟩ := errors_merge setting s isExtension t
  have silent := List.filterMap_eq_nil_iff.mpr (here.silent nofun nofun)
  rw [reportedUnused, errors, List.filterMap_append, List.filterMap_append, silent, List.append_nil]
  split
  · exact List.append_nil _
  · exact List.append_nil _

/-! ## What a declaration of a field notes -/

theorem externals_recordExternal (path : String) (isExternal : Bool) : (s.recordExternal path isExternal).externals =
    if isExternal then s.externals.insert path else s.externals := by
  unfold recordExternal
  split <;> rfl

/-- The field sets that are noted for a field: what it provides and what it requires. -/
def notedFieldSets (s : Survey) (typeName name : String) : Option String × Option String :=
  let sets := s.fieldSets.getD typeName .empty
  (sets.provides.get? name, sets.requires.get? name)

/-- A field set that is written replaces the one that was noted. -/
theorem notedFieldSets_recordFieldSets (parent field : String) (applied : AppliedDirectives) (typeName name : String) :
    (s.recordFieldSets parent field applied).notedFieldSets typeName name =
      if typeName = parent ∧ name = field then
        ((applied.fieldSet? Vocabulary.provides).or (s.notedFieldSets typeName name).1,
          (applied.fieldSet? Vocabulary.requires).or (s.notedFieldSets typeName name).2)
      else s.notedFieldSets typeName name := by
  unfold recordFieldSets notedFieldSets
  dsimp only
  rw [show (applied.named Vocabulary.provides).head?.bind (·.string? Vocabulary.fields) =
    applied.fieldSet? Vocabulary.provides from rfl, show (applied.named Vocabulary.requires).head?.bind
      (·.string? Vocabulary.fields) = applied.fieldSet? Vocabulary.requires from rfl]
  by_cases here : typeName = parent
  · subst here
    by_cases same : name = field <;> cases applied.fieldSet? Vocabulary.provides <;>
      cases applied.fieldSet? Vocabulary.requires <;> simp [same, Table.getD, Table.get?_upsert]
  · simp only [here, false_and, if_false]
    split
    · rfl
    · rw [Table.getD_upsert, if_neg here]

/-- What a declaration of a field notes: the field, if it is external, and its field sets. -/
structure NotesField (setting : Setting) (parent : String) (isParentExternal : Bool) (existing? : Option Field)
    (f : FieldDefinition) (s s' : Survey) : Prop where
  externals : s'.externals =
    if isParentExternal || (Field.directivesWith setting parent existing? f).contains Vocabulary.external then
      s.externals.insert (coordinates parent f.name)
    else s.externals
  fieldSets :
    s'.fieldSets = (s.recordFieldSets parent f.name (Field.directivesWith setting parent existing? f)).fieldSets
  reported : s'.reportedUnused = s.reportedUnused

theorem NotesField.mem_externals {setting : Setting} {parent : String} {isParentExternal : Bool}
    {existing? : Option Field} {f : FieldDefinition} {s s' : Survey}
    (noted : NotesField setting parent isParentExternal existing? f s s') (path : String) :
    path ∈ s'.externals.toList ↔ path ∈ s.externals.toList ∨
      (isParentExternal || (Field.directivesWith setting parent existing? f).contains Vocabulary.external) = true ∧
        coordinates parent f.name = path := by
  rw [noted.externals]
  split
  · next marked => rw [OrderedSet.mem_insert, and_iff_right marked, eq_comm (a := path)]
  · next unmarked => exact (or_iff_left fun marked => unmarked marked.1).symm

theorem fieldSets_recordFieldSets_congr {s s' : Survey} (same : s'.fieldSets = s.fieldSets) (parent field : String)
    (applied : AppliedDirectives) :
    (s'.recordFieldSets parent field applied).fieldSets = (s.recordFieldSets parent field applied).fieldSets := by
  unfold recordFieldSets
  dsimp only
  split
  · exact same
  · rw [same]

namespace FieldMerge

variable (m : FieldMerge)

theorem applied_eq_directivesWith :
    m.applied = Field.directivesWith m.setting m.parent m.existing? m.declaration := m.applied_eq

theorem externals_after : m.after.externals =
    if m.isExternal then m.before.externals.insert (coordinates m.parent m.declaration.name)
    else m.before.externals := by
  have admitted : m.admitted.externals = m.before.externals := m.writes_admitted.same .externals (by decide)
  have argued : m.argued.2.externals = m.admitted.externals := m.writes_argued.same .externals (by decide)
  have referred : (m.argued.2.refer m.declaration.type.namedType).externals = m.before.externals :=
    argued.trans admitted
  calc
    m.after.externals = m.bound.externals := m.writes_after.same .externals (by decide)
    _ = m.noted.externals := m.writes_bound.same .externals (by decide)
    _ = m.filtered.externals := m.writes_noted.same .externals (by decide)
    _ = m.marked.externals := m.writes_filtered.same .externals (by decide)
    _ = _ := by rw [marked, externals_recordExternal, referred]

theorem fieldSets_after : m.after.fieldSets =
    (m.before.recordFieldSets m.parent m.declaration.name m.applied).fieldSets := by
  have filtered : m.filtered.fieldSets = m.before.fieldSets := calc
    m.filtered.fieldSets = m.marked.fieldSets := m.writes_filtered.same .fieldSets (by decide)
    _ = m.argued.2.fieldSets := m.writes_marked.same .fieldSets (by decide)
    _ = m.admitted.fieldSets := m.writes_argued.same .fieldSets (by decide)
    _ = m.before.fieldSets := m.writes_admitted.same .fieldSets (by decide)
  calc
    m.after.fieldSets = m.bound.fieldSets := m.writes_after.same .fieldSets (by decide)
    _ = m.noted.fieldSets := m.writes_bound.same .fieldSets (by decide)
    _ = _ := fieldSets_recordFieldSets_congr filtered ..

theorem notesField : NotesField m.setting m.parent (m.entry.directives.contains Vocabulary.external) m.existing?
    m.declaration m.before m.after where
  externals := m.applied_eq_directivesWith ▸ m.externals_after
  fieldSets := m.applied_eq_directivesWith ▸ m.fieldSets_after
  reported := m.declares_after.reportedUnused

end FieldMerge

theorem notesField_mergeField (parent : String) (entry : TypeEntry) (existing? : Option Field) (f : FieldDefinition) :
    NotesField setting parent (entry.directives.contains Vocabulary.external) existing? f s
      (s.mergeField setting parent entry existing? f) := by
  have noted := FieldMerge.notesField ⟨setting, parent, entry, existing?, f, s⟩
  rwa [FieldMerge.after_eq] at noted

/-! ## The whole survey -/

/-- What is noted of fields agrees with the registry. -/
structure TracksFields (s : Survey) : Prop where
  externals : ∀ path, path ∈ s.externals.toList ↔
    ∃ typeName name f, s.types.field? typeName name = some f ∧ f.isExternal = true ∧ coordinates typeName name = path
  fieldSets : ∀ typeName name, s.notedFieldSets typeName name =
    ((s.types.field? typeName name).bind (·.directives.fieldSet? Vocabulary.provides),
      (s.types.field? typeName name).bind (·.directives.fieldSet? Vocabulary.requires))
  reported : s.reportedUnused = []

variable {setting s}

theorem TracksFields.of_keeps {s' : Survey} (before : s.TracksFields) (kept : KeepsFields s s')
    (field? : ∀ typeName name, s'.types.field? typeName name = s.types.field? typeName name) : s'.TracksFields := by
  refine ⟨fun path => ?_, fun typeName name => ?_, kept.reported.trans before.reported⟩
  · simp only [kept.externals, before.externals, field?]
  · rw [field?, notedFieldSets, kept.fieldSets]
    exact before.fieldSets typeName name

/-! ## One more declaration of a field -/

/-- A field that was external stays external, and a declaration marks no field but its own. -/
theorem isExternal_mergeField_iff {parent : String} (known : (s.types.composite? parent).isSome = true)
    (entry : TypeEntry) (f : FieldDefinition) (path : String) :
    (∃ typeName name f', (s.mergeField setting parent entry (s.types.field? parent f.name) f).types.field? typeName
        name = some f' ∧ f'.isExternal = true ∧ coordinates typeName name = path) ↔
      (∃ typeName name f', s.types.field? typeName name = some f' ∧ f'.isExternal = true ∧
        coordinates typeName name = path) ∨
      (entry.directives.contains Vocabulary.external || (Field.directivesWith setting parent
        (s.types.field? parent f.name) f).contains Vocabulary.external) = true ∧ coordinates parent f.name = path := by
  simp only [field?_mergeField setting known]
  -- The field that was declared is looked up as it is now, any other as it was.
  constructor
  · rintro ⟨typeName, name, f', registered, external, rfl⟩
    split at registered
    · next here =>
      obtain ⟨rfl, rfl⟩ := here
      obtain rfl := Option.some.inj registered
      rw [Field.isExternal_declared, Bool.or_eq_true, Option.any_eq_true] at external
      rcases external with ⟨old, earlier, external⟩ | marked
      · exact .inl ⟨typeName, f.name, old, earlier, external, rfl⟩
      · exact .inr ⟨marked, rfl⟩
    · exact .inl ⟨typeName, name, f', registered, external, rfl⟩
  · rintro (⟨typeName, name, f', registered, external, rfl⟩ | ⟨marked, rfl⟩)
    · refine ⟨typeName, name, ?_⟩
      split
      · next here =>
        obtain ⟨rfl, rfl⟩ := here
        exact ⟨_, rfl, by rw [Field.isExternal_declared, registered]; simp [external], rfl⟩
      · exact ⟨f', registered, external, rfl⟩
    · exact ⟨parent, f.name, _, if_pos ⟨rfl, rfl⟩, by rw [Field.isExternal_declared, marked, Bool.or_true], rfl⟩

/-- A field that is declared once more is noted as the registry has it then. -/
theorem TracksFields.mergeField {parent : String} {entry : TypeEntry} (before : s.TracksFields)
    (found : s.types.get? parent = some entry) (composite : entry.composite?.isSome = true) (f : FieldDefinition) :
    (s.mergeField setting parent entry (s.types.field? parent f.name) f).TracksFields := by
  have noted := notesField_mergeField setting s parent entry (s.types.field? parent f.name) f
  have known : (s.types.composite? parent).isSome = true := by simpa [Registry.composite?, found] using composite
  constructor
  case reported => exact noted.reported.trans before.reported
  case externals =>
    intro path
    rw [noted.mem_externals, before.externals, isExternal_mergeField_iff known]
  case fieldSets =>
    intro typeName name
    rw [notedFieldSets, noted.fieldSets, ← notedFieldSets, notedFieldSets_recordFieldSets,
      field?_mergeField setting known, before.fieldSets]
    split
    · next here =>
      obtain ⟨rfl, rfl⟩ := here
      rw [Option.bind_some, Option.bind_some, Field.directives_declared, Field.fieldSet?_directivesWith,
        Field.fieldSet?_directivesWith]
    · rfl

theorem TracksFields.look (before : s.TracksFields) (l : Look) : (s.look setting l).TracksFields := by
  have declares := declares_look setting s l
  have looked := looked_look setting s l
  generalize s.look setting l = s' at declares looked ⊢
  cases looked with
  | retained noType _ kept written =>
    exact before.of_keeps (.of_declares written (by decide) (by decide) (declares noType)) kept.field?
  | type => exact before.of_keeps (keepsFields_merge ..) (field?_of_mergesType (mergesType_merge ..))
  | conflict | duplicate => exact before.of_keeps (keepsFields_report s _ rfl) fun _ _ => rfl
  | passed => exact before
  | field found composite _ => exact before.mergeField found composite _

/-- The fields of a survey are tracked, whatever it reports, if no field without use was reported before. -/
theorem tracksFields_walk {statements : List Statement} {errors : List Error}
    (silent : ∀ e ∈ errors, e.unusedExternal? = none) : (walk setting errors statements).TracksFields := by
  refine walk_recOn ⟨fun path => ?_, fun _ _ => rfl, List.filterMap_eq_nil_iff.mpr silent⟩
    fun _ _ _ l _ before => before.look l
  -- At first nothing is noted, and no type is registered.
  exact iff_of_false List.not_mem_nil fun ⟨_, _, _, registered, _⟩ => nomatch registered

end Survey

end Federation
