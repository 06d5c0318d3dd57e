import Federation.Proofs.Survey.Coherence

/-!
# Overrides that a survey records

In a survey without errors the fields that are recorded as taken over from another subgraph are those on
which a declaration says so, and no subgraph takes a field over from itself.
-/

namespace Federation

open Schema

/-- The subgraphs that the applications on a field take it over from. -/
def overriddenBy (applied : List Directive) : List String :=
  (applied.filter (·.name = Vocabulary.override)).filterMap (·.string? Vocabulary.fromArgument)

theorem overriddenBy_append (first second : List Directive) :
    overriddenBy (first ++ second) = overriddenBy first ++ overriddenBy second := by
  simp [overriddenBy]

namespace Overrides

/-- The fields of a type that are taken over from a subgraph. -/
def fields (overrides : Overrides) (target typeName : String) : NameSet :=
  (Table.getD overrides target .empty).getD typeName .empty

/-- No type is listed without a field. -/
def Proper (overrides : Overrides) : Prop :=
  ∀ target types, Table.get? overrides target = some types →
    ∀ typeName names, types.get? typeName = some names → names.toList ≠ []

theorem mem_fields_add {overrides : Overrides} {target typeName other otherType name : String}
    {names : List String} :
    name ∈ ((overrides.add target typeName names).fields other otherType).toList ↔
      name ∈ (overrides.fields other otherType).toList ∨
        (other = target ∧ otherType = typeName ∧ name ∈ names) := by
  unfold fields add
  rw [Table.getD_upsert]
  by_cases same : other = target
  · subst same
    rw [if_pos rfl, Table.getD_upsert]
    by_cases here : otherType = typeName
    · subst here
      simp [Table.getD]
    · simp [here, Table.getD]
  · simp [same]

theorem proper_add {overrides : Overrides} {target typeName : String} {names : List String}
    (some : names ≠ []) (before : overrides.Proper) : (overrides.add target typeName names).Proper := by
  intro other types found otherType listed known
  unfold add at found
  rw [Table.get?_upsert] at found
  split at found
  · obtain rfl := Option.some.inj found
    rw [Table.get?_upsert] at known
    split at known
    · obtain rfl := Option.some.inj known
      obtain ⟨name, member⟩ := List.exists_mem_of_ne_nil names some
      exact List.ne_nil_of_mem (OrderedSet.mem_insertAll.mpr (Or.inr member))
    · cases old : Table.get? overrides target with
      | none => simp [old] at known
      | some types => exact before target types old otherType listed (by simpa [old] using known)
  · exact before other types found otherType listed known

end Overrides

/-! ## The intake -/

namespace Intake

variable {setting : Setting} {location : Location} {hostPath : String}

/-- Without errors an application of an override is set aside and names another subgraph. -/
theorem overridden_step {i : Intake} {d : Directive} (fresh : i.repeats = .empty)
    (clean : (step setting location hostPath i d).errors = []) :
    (step setting location hostPath i d).overridden = i.overridden ++ overriddenBy [d] ∧
      setting.subgraph ∉ overriddenBy [d] := by
  have same := (step_of_clean setting location hostPath i d fresh clean).2
  by_cases named : d.name = Vocabulary.override
  · have aside : isSetAside location i.accepted d = true := by simp [isSetAside, named]
    constructor
    · rw [same, if_pos aside]
      exact overriddenBy_append i.setAside [d]
    · -- An override of the subgraph's own field is an error.
      intro own
      have target : d.string? Vocabulary.fromArgument = some setting.subgraph := by
        simpa [overriddenBy, named] using own
      have itself : overridesItself setting d = true := by simp [overridesItself, named, target]
      unfold step at clean
      split at clean
      · next judged =>
        have allowed := allows_of_judge setting location hostPath i.accepted d
        rw [fresh] at judged
        rw [judged] at allowed
        simp at allowed
      · simp at clean
      · rw [if_pos itself] at clean
        simp at clean
  · have other : overriddenBy [d] = [] := by simp [overriddenBy, named]
    rw [same, other, List.append_nil]
    refine ⟨?_, List.not_mem_nil⟩
    split
    · exact (overriddenBy_append i.setAside [d]).trans (by rw [other, List.append_nil]; rfl)
    · rfl

theorem overridden_run {applied : List Directive} {i : Intake} (fresh : i.repeats = .empty)
    (clean : (applied.foldl (step setting location hostPath) i).errors = []) :
    (applied.foldl (step setting location hostPath) i).overridden = i.overridden ++ overriddenBy applied ∧
      setting.subgraph ∉ overriddenBy applied := by
  induction applied generalizing i with
  | nil => exact ⟨(List.append_nil _).symm, List.not_mem_nil⟩
  | cons d rest ih =>
    have later := Survey.errors_prefix_intake setting location hostPath rest (step setting location hostPath i d)
    have now : (step setting location hostPath i d).errors = [] := List.prefix_nil.mp (clean ▸ later)
    have first := overridden_step fresh now
    have kept := Survey.repeats_step setting location hostPath i d now
    have tail := ih (kept.trans fresh) clean
    have parts : overriddenBy (d :: rest) = overriddenBy [d] ++ overriddenBy rest := overriddenBy_append [d] rest
    rw [List.foldl_cons, tail.1, first.1, parts, List.append_assoc]
    exact ⟨rfl, fun member => (List.mem_append.mp member).elim first.2 tail.2⟩

end Intake

/-! ## What a declaration of a field records -/

namespace Survey

variable (setting : Setting) (s : Survey)

/-- A declaration of a field records what its intake finds. -/
theorem overrides_mergeField (parent : String) (entry : TypeEntry) (existing? : Option Field)
    (f : FieldDefinition) :
    (s.mergeField setting parent entry existing? f).overrides =
      (s.takeIn setting .fieldDefinition (coordinates parent f.name)
        ((existing?.map Field.directives).getD .empty) f.directives).1.overridden.foldl
        (fun overrides target => overrides.add target (setting.roots.canonicalName parent) [f.name])
        s.overrides := by
  have later := (FieldMerge.writes_later ⟨setting, parent, entry, existing?, f, s⟩).same .overrides (by decide)
  rwa [FieldMerge.after_eq] at later

/-- Without errors a declaration of a field records the overrides on it. -/
theorem overridden_of_mergeField {parent : String} {entry : TypeEntry} {existing? : Option Field}
    {f : FieldDefinition} {setting : Setting} {s : Survey} (fresh : s.repeats = .empty)
    (clean : (s.mergeField setting parent entry existing? f).errors = []) :
    (s.mergeField setting parent entry existing? f).overrides = (overriddenBy f.directives).foldl
        (fun overrides target => overrides.add target (setting.roots.canonicalName parent) [f.name])
        s.overrides ∧
      setting.subgraph ∉ overriddenBy f.directives := by
  have found := Intake.overridden_run fresh
    ((mergesField_mergeField setting parent entry existing? f s).intake clean)
  rw [overrides_mergeField]
  exact ⟨congrArg (List.foldl _ _) found.1, found.2⟩

/-! ## The whole survey -/

/-- What is recorded of overrides agrees with what was looked at. -/
structure RecordsOverrides (setting : Setting) (past : List Look) (s : Survey) : Prop where
  fields : ∀ target typeName name, name ∈ (s.overrides.fields target typeName).toList ↔
    ∃ isExtension t f, .field isExtension t f ∈ past ∧ Look.isServed setting t f = false ∧
      setting.roots.canonicalName t.name = typeName ∧ f.name = name ∧ target ∈ overriddenBy f.directives
  proper : s.overrides.Proper
  /-- No field is taken over from the subgraph itself. -/
  foreign : ∀ isExtension t f, .field isExtension t f ∈ past → Look.isServed setting t f = false →
    setting.subgraph ∉ overriddenBy f.directives

theorem recordsOverrides_start (errors : List Error) : RecordsOverrides setting [] (start errors) where
  fields target typeName name := by simp [start, Overrides.fields, Table.getD]
  proper := nofun
  foreign := nofun

variable {setting s}

theorem recordsOverrides_of_eq {past : List Look} {s' : Survey} {l : Look}
    (same : s'.overrides = s.overrides)
    (passed : ∀ isExtension t f, l = .field isExtension t f → Look.isServed setting t f = true)
    (before : RecordsOverrides setting past s) : RecordsOverrides setting (past ++ [l]) s' := by
  refine ⟨fun target typeName name => ?_, same ▸ before.proper, fun isExtension t f member unserved =>
    before.foreign isExtension t f (Look.field_of_passed passed member unserved) unserved⟩
  rw [same, before.fields]
  constructor
  · rintro ⟨isExtension, t, f, member, rest⟩
    exact ⟨isExtension, t, f, List.mem_append_left _ member, rest⟩
  · rintro ⟨isExtension, t, f, member, unserved, rest⟩
    exact ⟨isExtension, t, f, Look.field_of_passed passed member unserved, unserved, rest⟩

theorem mem_fields_addAll {typeName name : String} (targets : List String) {overrides : Overrides}
    {other otherType otherName : String} :
    otherName ∈ ((targets.foldl (fun overrides target => overrides.add target typeName [name])
        overrides).fields other otherType).toList ↔
      otherName ∈ (overrides.fields other otherType).toList ∨
        (other ∈ targets ∧ otherType = typeName ∧ otherName = name) := by
  induction targets generalizing overrides with
  | nil => simp
  | cons target rest ih =>
    rw [List.foldl_cons, ih, Overrides.mem_fields_add, List.mem_singleton, List.mem_cons, or_assoc]
    refine or_congr_right ?_
    rw [← or_and_right]

theorem proper_addAll {typeName name : String} (targets : List String) {overrides : Overrides}
    (before : overrides.Proper) :
    (targets.foldl (fun overrides target => overrides.add target typeName [name]) overrides).Proper := by
  induction targets generalizing overrides with
  | nil => exact before
  | cons target rest ih => exact ih (Overrides.proper_add (List.cons_ne_nil _ _) before)

theorem recordsOverrides_mergeField {past : List Look} {isExtension : Bool} {t : TypeDefinition}
    {f : FieldDefinition} {entry : TypeEntry} {existing? : Option Field} (fresh : s.repeats = .empty)
    (clean : (s.mergeField setting t.name entry existing? f).errors = [])
    (looked : Look.isServed setting t f = false) (before : RecordsOverrides setting past s) :
    RecordsOverrides setting (past ++ [.field isExtension t f])
      (s.mergeField setting t.name entry existing? f) := by
  have taken := overridden_of_mergeField fresh clean
  refine ⟨fun target typeName name => ?_, ?_, Look.forall_field_append.mpr ⟨before.foreign, fun _ => taken.2⟩⟩
  -- A field is overridden by what was declared before or by this declaration of it.
  · have append := Look.exists_field_append past isExtension t f fun t' f' => Look.isServed setting t' f' = false ∧
      setting.roots.canonicalName t'.name = typeName ∧ f'.name = name ∧ target ∈ overriddenBy f'.directives
    rw [taken.1, mem_fields_addAll, before.fields, append]
    refine or_congr_right ⟨?_, ?_⟩
    · rintro ⟨target, rfl, rfl⟩
      exact ⟨looked, rfl, rfl, target⟩
    · rintro ⟨-, type, name, target⟩
      exact ⟨target, type.symm, name.symm⟩
  · rw [taken.1]
    exact proper_addAll _ before.proper

theorem recordsOverrides_look {past : List Look} {l : Look} (follows : l.Follows past)
    (clean : (s.look setting l).errors = []) (fresh : s.repeats = .empty)
    (coherent : Coherent setting past s) (before : RecordsOverrides setting past s) :
    RecordsOverrides setting (past ++ [l]) (s.look setting l) := by
  have looked := looked_look setting s l
  generalize s.look setting l = s' at looked clean ⊢
  cases looked with
  | retained _ noField _ written =>
    exact recordsOverrides_of_eq (written.same .overrides (by decide))
      (fun _ _ _ field => absurd field (noField _ _ _)) before
  | type => exact recordsOverrides_of_eq ((writes_merge ..).same .overrides (by decide)) nofun before
  | conflict | duplicate => simp [report] at clean
  | passed served =>
    refine recordsOverrides_of_eq rfl ?_ before
    rintro _ _ _ ⟨⟩
    exact coherent.isServed_of_passed follows served
  | field found _ unserved =>
    exact recordsOverrides_mergeField fresh clean (coherent.isServed_of_merged follows found unserved) before

/-- A survey that ends without errors records the overrides of the text. -/
theorem recordsOverrides_walk {statements : List Statement} {errors : List Error}
    (clean : (walk setting errors statements).errors = []) :
    RecordsOverrides setting (Look.all statements) (walk setting errors statements) :=
  (walk_induction clean
    (fun _ _ _ _ follows now fresh coherent => recordsOverrides_look follows now fresh coherent)
    (recordsOverrides_start setting errors)).2

end Survey

end Federation
