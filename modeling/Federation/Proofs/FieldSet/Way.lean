import Federation.Proofs.Document.Conformance
import Federation.Proofs.FieldSet.Condition
import Federation.Proofs.FieldSet.Unused
import Mathlib.Data.List.Chain

/-!
# Ways to external fields

A field set leads to a field on the path by which its tree of selections reaches it. What a field provides is reached
through this field, and what it requires stands beside it. The conditional fields of a valid subgraph are the external
fields that some field set leads to, each with one condition for each way to it.
-/

namespace Federation

open Schema

/-- Fields that lead from one to the next, each with the type that declares it. -/
abbrev Way := List (String × String)

/-- What a way says: each field by its coordinates, and each by its name. -/
def Condition.ofWay (way : Way) : Condition :=
  ⟨way.map fun step => coordinates step.1 step.2, way.map Prod.snd⟩

/-- The field sets that all applications of a directive have. -/
def AppliedDirectives.fieldSets (applied : AppliedDirectives) (directive : String) : List String :=
  (applied.named directive).filterMap (·.string? Vocabulary.fields)

namespace FieldSetUse

/-- The directive that declares field sets for a use. -/
def directive : FieldSetUse → String
  | key => Vocabulary.key
  | provides => Vocabulary.provides
  | requires => Vocabulary.requires

/-- The type whose fields a field selects: its own for what it provides, and else the one that declares it. -/
def target (use : FieldSetUse) (host : String) (f : Field) : String :=
  if use = .provides then f.type.namedType else host

/-- Where the ways from a field begin: at this field for what it provides, and else beside it. -/
def start (use : FieldSetUse) (host name : String) : Way := if use = .provides then [(host, name)] else []

end FieldSetUse

namespace Registry

/-- Whether the second field is one of the type of the first. -/
def LeadsTo (types : Registry) (first second : String × String) : Prop :=
  ∃ f, types.field? first.1 first.2 = some f ∧ second.1 = f.type.namedType

/-- All fields of objects and interfaces, each with its type. -/
def allFields (types : Registry) : List (String × String × Field) :=
  types.toList.flatMap fun (typeName, _) =>
    (types.fields typeName).toList.map fun (name, f) => (typeName, name, f)

/-- The fields that a path of names meets from a type on. After a field that is not declared there are none. -/
def way (types : Registry) : String → List String → Way
  | _, [] => []
  | parent, name :: rest =>
    (parent, name) ::
      match types.field? parent name with
      | none => []
      | some f => types.way f.type.namedType rest

/-- The ways to all that a field set selects on a type, each with what comes before. -/
def waysFrom (types : Registry) (start : Way) (target fieldSet : String) : List Way :=
  ((Grammar.readFieldSet? fieldSet).toList.flatMap FieldSet.listPaths).map fun path => start ++ types.way target path

/-- The ways on which the fields of a registry provide or require others. -/
def ways (types : Registry) (use : FieldSetUse) : List Way :=
  types.allFields.flatMap fun (host, name, f) =>
    (f.directives.fieldSets use.directive).flatMap (types.waysFrom (use.start host name) (use.target host f))

/-- What the ways of a use say of the field at which they end. -/
def conditionsAt (types : Registry) (use : FieldSetUse) (typeName name : String) : List Condition :=
  ((types.ways use).filter (·.getLast? = some (typeName, name))).map .ofWay

/-- Whether a field set can be read, and is a tree whose paths lead through fields to fields. -/
def Follows (types : Registry) (start : Way) (target fieldSet : String) : Prop :=
  ∃ tree, Grammar.readFieldSet? fieldSet = some tree ∧ ∀ path ∈ FieldSet.listPaths tree,
    (types.way target path).map Prod.snd = path ∧ (start ++ types.way target path).IsChain types.LeadsTo

variable {types : Registry}

theorem mem_allFields {typeName name : String} {f : Field} :
    (typeName, name, f) ∈ types.allFields ↔ types.field? typeName name = some f := by
  rw [field?_eq, allFields, List.mem_flatMap]
  constructor
  · rintro ⟨⟨_, entry⟩, -, listed⟩
    obtain ⟨⟨_, _⟩, member, same⟩ := List.mem_map.mp listed
    cases same
    exact Table.mem_toList.mp member
  · intro declared
    have registered : typeName ∈ types.keys := by
      by_contra absent
      rw [fields, composite?, Table.get?_eq_none_iff.mpr absent] at declared
      cases declared
    obtain ⟨entry, found⟩ := Table.exists_get?_of_mem_keys registered
    exact ⟨(typeName, entry), Table.mem_toList.mpr found,
      List.mem_map.mpr ⟨(name, f), Table.mem_toList.mpr declared, rfl⟩⟩

/-! ## Ways along paths -/

theorem head?_way {parent : String} {path : List String} : ∀ step ∈ (types.way parent path).head?, step.1 = parent := by
  cases path with
  | nil => nofun
  | cons name rest =>
    intro step first
    rw [way, List.head?_cons, Option.mem_some_iff] at first
    rw [← first]

theorem isChain_way (parent : String) (path : List String) : (types.way parent path).IsChain types.LeadsTo := by
  induction path generalizing parent with
  | nil => exact .nil
  | cons name rest ih =>
    rw [way]
    cases declared : types.field? parent name with
    | none => exact .singleton _
    | some f => exact List.isChain_cons.mpr ⟨fun step first => ⟨f, declared, head?_way step first⟩, ih _⟩

/-- A path that leads to a place is met in full, and the way ends there. -/
theorem way_of_place? {parent : String} {path : List String} {place : String × String}
    (found : FieldSet.place? types parent path = some place) :
    (types.way parent path).map Prod.snd = path ∧ (types.way parent path).getLast? = some place := by
  fun_induction FieldSet.place? types parent path with
  | case1 => contradiction
  | case2 parent name =>
    cases found
    rw [way]
    cases types.field? parent name <;> exact ⟨rfl, rfl⟩
  | case3 parent name next rest ih =>
    obtain ⟨field, declared, deeper⟩ := Option.bind_eq_some_iff.mp found
    obtain ⟨names, last⟩ := ih field deeper
    rw [way, declared]
    dsimp only
    refine ⟨congrArg (name :: ·) names, ?_⟩
    simp only [way] at last ⊢
    rw [List.getLast?_cons_cons]
    exact last

/-! ## Conditions as ways -/

/-- The condition that a way makes of the external field at its end. -/
def condition? (types : Registry) (way : Way) : Option (String × Condition) :=
  way.getLast?.bind fun step =>
    (types.field? step.1 step.2).bind fun f =>
      if f.isExternal then some (coordinates step.1 step.2, .ofWay way) else none

theorem condition?_eq_some_iff {way : Way} {found : String × Condition} :
    types.condition? way = some found ↔ ∃ step f, way.getLast? = some step ∧ types.field? step.1 step.2 = some f ∧
      f.isExternal = true ∧ found = (coordinates step.1 step.2, .ofWay way) := by
  simp only [condition?, Option.bind_eq_some_iff, Option.ite_none_right_eq_some, Option.some.injEq,
    eq_comm (b := found)]
  exact ⟨fun ⟨step, last, f, rest⟩ => ⟨step, f, last, rest⟩, fun ⟨step, f, last, rest⟩ => ⟨step, last, f, rest⟩⟩

/-- Of the conditions that some ways make, those of one external field are those of the ways that end there. -/
theorem filter_condition? (plain : ∀ typeName, (types.composite? typeName).isSome = true → '.' ∉ typeName.toList)
    {typeName name : String} {f : Field} (declared : types.field? typeName name = some f)
    (external : f.isExternal = true) (ways : List Way) :
    ((ways.filterMap types.condition?).filter (·.1 = coordinates typeName name)).map Prod.snd =
      (ways.filter (·.getLast? = some (typeName, name))).map .ofWay := by
  have registered {typeName name : String} {f : Field} (declared : types.field? typeName name = some f) :=
    isSome_composite?_of_field? (declared ▸ rfl : (types.field? typeName name).isSome = true)
  induction ways with
  | nil => rfl
  | cons way rest ih =>
    rw [List.filterMap_cons, List.filter_cons]
    cases last : way.getLast? with
    | none => simpa [condition?, last] using ih
    | some step =>
      obtain ⟨typeName', name'⟩ := step
      by_cases here : typeName' = typeName ∧ name' = name
      · obtain ⟨rfl, rfl⟩ := here
        simpa [condition?, last, declared, external] using ih
      · -- Other fields are not external, or their coordinates are others.
        cases declared' : types.field? typeName' name' with
        | none => simpa [condition?, last, declared', here] using ih
        | some f' =>
          have other : coordinates typeName' name' ≠ coordinates typeName name :=
            here ∘ (coordinates_eq_iff plain (registered declared') (registered declared)).mp
          cases external' : f'.isExternal <;>
            simpa [condition?, last, declared', external', here, List.filter_cons, other] using ih

end Registry

namespace FieldSet

variable {types : Registry}

def Step.ofField (step : String × String) : Step := ⟨Federation.coordinates step.1 step.2, step.2⟩

theorem ofPath_map_ofField (way : Way) : Condition.ofPath (way.map Step.ofField) = .ofWay way := by
  simp [Condition.ofPath, Condition.ofWay, Step.ofField, Function.comp_def]

-- The way before a selection grows by the selected field, so the induction is on the tree, for every way at once.
mutual

theorem conditions_eq (start : Way) (parent : String) :
    ∀ s : Selection, conditions types (start.map Step.ofField) parent s =
      ((paths s).map fun path => start ++ types.way parent path).filterMap types.condition?
  | .fragment => rfl
  | .field name hasArguments hasDirectives selections => by
    have below : (paths (.field name hasArguments hasDirectives selections)).map
          (fun path => start ++ types.way parent path) =
        (start ++ types.way parent [name]) ::
          (listPaths selections).map fun path => start ++ types.way parent (name :: path) := by
      rw [paths, List.map_cons, List.map_map]
      rfl
    rw [below, conditions]
    cases declared : types.field? parent name with
    | none =>
      -- All ways end at the missing field.
      simp [Registry.way, declared, Registry.condition?]
    | some field =>
      have grown : start.map Step.ofField ++ [⟨coordinates parent name, name⟩] =
          (start ++ [(parent, name)]).map Step.ofField := by
        rw [List.map_append]
        rfl
      have here : types.condition? (start ++ [(parent, name)]) =
          if field.isExternal then some (coordinates parent name, .ofWay (start ++ [(parent, name)])) else none := by
        simp [Registry.condition?, declared]
      simp only [Registry.way, declared, grown, ofPath_map_ofField,
        listConditions_eq (start ++ [(parent, name)]) field.type.namedType selections, List.filterMap_cons, here,
        List.append_assoc, List.cons_append, List.nil_append]
      split <;> rfl

theorem listConditions_eq (start : Way) (parent : String) :
    ∀ selections : List Selection, listConditions types (start.map Step.ofField) parent selections =
      ((listPaths selections).map fun path => start ++ types.way parent path).filterMap types.condition?
  | [] => rfl
  | s :: rest => by
    rw [listConditions, conditions_eq start parent s, listConditions_eq start parent rest, listPaths, List.map_append,
      List.filterMap_append]

end

end FieldSet

/-! ## What fields declare -/

/-- What a field declares for a use, as it is checked. -/
def Registry.declared (types : Registry) (use : FieldSetUse) : String × String × Field → List FieldSet.DeclaredSelection
  | (host, name, f) => (f.directives.fieldSet? use.directive).toList.map fun fieldSet =>
    ⟨use, host, name, fieldSet, use.target host f, FieldSet.check types use (use.target host f) fieldSet⟩

theorem FieldSet.nodup_selectionsOn (types : Registry) (typeName : String) (sets : FieldSets) :
    (selectionsOn types typeName sets).Nodup := by
  have provided : ((providedOn types typeName sets).map DeclaredSelection.field).Nodup := by
    simpa [providedOn, Function.comp_def] using sets.provides.nodup_keys
  have required : ((requiredOn types typeName sets).map DeclaredSelection.field).Nodup := by
    simpa [requiredOn, Function.comp_def] using sets.requires.nodup_keys
  refine List.nodup_append.mpr ⟨.of_map _ provided, .of_map _ required, ?_⟩
  rintro _ first _ second rfl
  obtain ⟨_, -, rfl⟩ := List.mem_map.mp first
  obtain ⟨_, -, same⟩ := List.mem_map.mp second
  cases congrArg DeclaredSelection.use same

theorem Registry.nodup_declared (types : Registry) (use : FieldSetUse) :
    (types.allFields.flatMap (types.declared use)).Nodup := by
  have each (typeName name : String) (f : Field) : (types.declared use (typeName, name, f)).Nodup := by
    dsimp only [declared]
    cases f.directives.fieldSet? use.directive <;> simp
  -- Field sets are told apart by their types, and within a type by their fields.
  have ofType (typeName : String) : ((types.fields typeName).toList.flatMap fun (name, f) =>
      types.declared use (typeName, name, f)).Nodup :=
    Table.nodup_flatMap _ (fun name f => types.declared use (typeName, name, f)) FieldSet.DeclaredSelection.field
      (each typeName) fun name f d member => by
        obtain ⟨_, -, rfl⟩ := List.mem_map.mp member
        rfl
  rw [allFields, List.flatMap_assoc]
  simp only [List.flatMap_map]
  refine Table.nodup_flatMap types (fun typeName _ => (types.fields typeName).toList.flatMap fun (name, f) =>
    types.declared use (typeName, name, f)) FieldSet.DeclaredSelection.typeName (fun typeName _ => ofType typeName) ?_
  intro typeName _ d member
  obtain ⟨_, -, member⟩ := List.mem_flatMap.mp member
  obtain ⟨_, -, rfl⟩ := List.mem_map.mp member
  rfl

namespace Assembly

variable {a : Assembly}

theorem nodup_declaredSelections (a : Assembly) : a.declaredSelections.Nodup := by
  refine Table.nodup_flatMap a.survey.fieldSets (fun name sets => FieldSet.selectionsOn a.types name sets)
    FieldSet.DeclaredSelection.typeName (fun _ _ => FieldSet.nodup_selectionsOn ..) ?_
  intro name sets d member
  rcases List.mem_append.mp member with provided | required
  · obtain ⟨_, -, rfl⟩ := List.mem_map.mp provided
    rfl
  · obtain ⟨_, -, rfl⟩ := List.mem_map.mp required
    rfl

/-- What is checked for a use is, in another order, what the fields of the registry declare for it. -/
theorem Tracked.perm_declared (tracked : a.Tracked) {use : FieldSetUse} (onField : use ≠ .key) :
    (a.declaredSelections.filter (·.use = use)).Perm (a.types.allFields.flatMap (a.types.declared use)) := by
  refine (List.perm_ext_iff_of_nodup (a.nodup_declaredSelections.filter _) (a.types.nodup_declared use)).mpr fun d => ?_
  rw [List.mem_filter, decide_eq_true_eq, tracked.mem_declaredSelections, List.mem_flatMap]
  simp only [Prod.exists, Registry.mem_allFields, Registry.declared, List.mem_map, Option.mem_toList]
  constructor
  · rintro ⟨⟨host, name, f, fieldSet, declared, ⟨written, rfl⟩ | ⟨written, rfl⟩⟩, rfl⟩ <;>
      exact ⟨host, name, f, declared, fieldSet, written, rfl⟩
  · rintro ⟨host, name, f, declared, fieldSet, written, rfl⟩
    cases use with
    | key => contradiction
    | provides => exact ⟨⟨host, name, f, fieldSet, declared, .inl ⟨written, rfl⟩⟩, rfl⟩
    | requires => exact ⟨⟨host, name, f, fieldSet, declared, .inr ⟨written, rfl⟩⟩, rfl⟩

/-- Where no field set is reported, all that fields declare are accepted. -/
theorem accepted_of_fieldSetErrors (quiet : a.fieldSetErrors = []) {d : FieldSet.DeclaredSelection}
    (listed : d ∈ a.declaredSelections) : d.faults = [] := by
  have silent (directive typeName : String) (declared : List FieldSet.DeclaredSelection)
      (quiet : FieldSet.selectionErrors directive typeName declared = []) : ∀ d ∈ declared, d.faults = [] := by
    unfold FieldSet.selectionErrors at quiet
    rw [ite_isEmpty_eq_nil_iff, List.flatMap_eq_nil_iff] at quiet
    exact fun d member => List.map_eq_nil_iff.mp (quiet d member)
  obtain ⟨⟨typeName, sets⟩, noted, member⟩ := List.mem_flatMap.mp listed
  have ofType := List.flatMap_eq_nil_iff.mp (List.append_eq_nil_iff.mp quiet).2 (typeName, sets) noted
  obtain ⟨provided, required⟩ := List.append_eq_nil_iff.mp ofType
  rcases List.mem_append.mp member with member | member
  · exact silent _ _ _ provided d member
  · exact silent _ _ _ required d member

end Assembly

/-! ## Conditions of a valid subgraph -/

/-- What a field declares without faults is accepted. -/
theorem Registry.check_of_declared {types : Registry} {use : FieldSetUse} {host name : String} {f : Field}
    {d : FieldSet.DeclaredSelection} (member : d ∈ types.declared use (host, name, f)) (quiet : d.faults = []) :
    ∃ selections, d.outcome = .ok selections ∧
      FieldSet.check types use (use.target host f) d.fieldSet = .ok selections := by
  obtain ⟨fieldSet, -, rfl⟩ := List.mem_map.mp member
  unfold FieldSet.DeclaredSelection.faults at quiet
  dsimp only at quiet ⊢
  cases checked : FieldSet.check types use (use.target host f) fieldSet with
  | ok selections => exact ⟨selections, rfl, rfl⟩
  | error faults =>
    rw [checked] at quiet
    exact absurd (checked.trans (congrArg Except.error quiet)) (FieldSet.check_ne_error_nil _ _ _ _)

/-- Of what a field declares without faults, each path of the field set makes one way. -/
theorem Registry.conditions_declared {types : Registry} {use : FieldSetUse} {host name : String} {f : Field}
    {d : FieldSet.DeclaredSelection} (member : d ∈ types.declared use (host, name, f)) (quiet : d.faults = []) :
    d.conditions types =
      (types.waysFrom (use.start host name) (use.target host f) d.fieldSet).filterMap types.condition? := by
  obtain ⟨selections, outcome, checked⟩ := check_of_declared member quiet
  obtain ⟨fieldSet, -, rfl⟩ := List.mem_map.mp member
  have host_eq : FieldSet.DeclaredSelection.host ⟨use, host, name, fieldSet, use.target host f,
      FieldSet.check types use (use.target host f) fieldSet⟩ = (use.start host name).map FieldSet.Step.ofField := by
    unfold FieldSet.DeclaredSelection.host FieldSetUse.start
    split <;> rfl
  unfold FieldSet.DeclaredSelection.conditions FieldSet.DeclaredSelection.selections? waysFrom
  rw [outcome, host_eq, (FieldSet.check_eq_ok_iff.mp checked).1]
  simpa using FieldSet.listConditions_eq (use.start host name) (use.target host f) selections

/-- A field set of a field that is accepted is followed in full. -/
theorem Registry.follows_of_check {types : Registry} {use : FieldSetUse} {host name fieldSet : String} {f : Field}
    (declared : types.field? host name = some f) {selections : List Selection}
    (checked : FieldSet.check types use (use.target host f) fieldSet = .ok selections) :
    types.Follows (use.start host name) (use.target host f) fieldSet := by
  obtain ⟨read, quiet⟩ := FieldSet.check_eq_ok_iff.mp checked
  refine ⟨selections, read, fun path selected => ?_⟩
  obtain ⟨place, found, -⟩ := FieldSet.exists_place?_of_faults quiet path selected
  refine ⟨(way_of_place? found).1, ?_⟩
  have chain : (types.way (use.target host f) path).IsChain types.LeadsTo := isChain_way _ path
  by_cases provided : use = .provides
  · subst provided
    exact List.isChain_cons.mpr ⟨fun step first => ⟨f, declared, head?_way step first⟩, chain⟩
  · simpa [FieldSetUse.start, provided] using chain

/-- A directive that may not be repeated has at most one field set. -/
theorem AppliedDirectives.InOrder.fieldSets_eq {setting : Setting} {location : Location} {applied : AppliedDirectives}
    (inOrder : applied.InOrder setting location) {directive : String} {definition : DirectiveDefinition}
    (defined : setting.directive? directive = some definition) (single : definition.isRepeatable = false) :
    applied.fieldSets directive = (applied.fieldSet? directive).toList := by
  have once := inOrder.once directive definition defined single
  unfold fieldSets fieldSet?
  match applied.named directive, once with
  | [], _ => rfl
  | [d], _ => cases written : d.string? Vocabulary.fields <;> simp [written]

namespace Assembly

variable {a : Assembly}

/-- The conditions that the field sets of a use make. -/
def conditionsOf (a : Assembly) (use : FieldSetUse) : List (String × Condition) :=
  (a.declaredSelections.filter (·.use = use)).flatMap (·.conditions a.types)

theorem Grounded.fieldSets_eq (g : a.Grounded) {host name : String} {f : Field}
    (declared : a.types.field? host name = some f) {use : FieldSetUse} (onField : use ≠ .key) :
    f.directives.fieldSets use.directive = (f.directives.fieldSet? use.directive).toList := by
  obtain ⟨definition, defined, single⟩ : ∃ definition, a.setting.directive? use.directive = some definition ∧
      definition.isRepeatable = false := by
    cases use with
    | key => contradiction
    | provides | requires => exact ⟨_, rfl, rfl⟩
  exact (g.inOrder_of_field? declared).fieldSets_eq defined single

/-- What the field sets of a use make conditional is, in another order, what the ways of this use end at. -/
theorem Tracked.perm_conditionsOf (tracked : a.Tracked) (g : a.Grounded) (quiet : a.fieldSetErrors = [])
    {use : FieldSetUse} (onField : use ≠ .key) :
    (a.conditionsOf use).Perm ((a.types.ways use).filterMap a.types.condition?) := by
  have order := tracked.perm_declared onField
  refine (order.flatMap_right _).trans (.of_eq ?_)
  rw [Registry.ways, List.flatMap_assoc, List.filterMap_flatMap]
  refine List.flatMap_congr fun ⟨host, field, f⟩ member => ?_
  have declared := Registry.mem_allFields.mp member
  have accepted : ∀ d ∈ a.types.declared use (host, field, f), d.faults = [] := fun d made =>
    accepted_of_fieldSetErrors quiet
      (List.mem_filter.mp (order.mem_iff.mpr (List.mem_flatMap.mpr ⟨_, member, made⟩))).1
  dsimp only
  rw [List.flatMap_congr fun d made => Registry.conditions_declared made (accepted d made),
    g.fieldSets_eq declared onField, List.filterMap_flatMap]
  exact List.flatMap_map ..

theorem Tracked.use_ne_key (tracked : a.Tracked) {d : FieldSet.DeclaredSelection} (listed : d ∈ a.declaredSelections) :
    d.use ≠ .key := by
  obtain ⟨host, name, f, fieldSet, -, ⟨-, rfl⟩ | ⟨-, rfl⟩⟩ := tracked.mem_declaredSelections.mp listed <;> nofun

/-- A condition is kept under coordinates as one of those that the field sets of its use make of them. -/
theorem Tracked.gather_foundConditions (tracked : a.Tracked) (path : String) :
    Router.ConditionalField.gather a.foundConditions path =
      ⟨((a.conditionsOf .provides).filter (·.1 = path)).map Prod.snd,
        ((a.conditionsOf .requires).filter (·.1 = path)).map Prod.snd⟩ := by
  -- Fields have no keys, so each field set is gathered on one of the two sides.
  have noKey : ∀ d ∈ a.declaredSelections, d.use ≠ .key := fun d => tracked.use_ne_key
  unfold Router.ConditionalField.gather foundConditions conditionsOf
  generalize a.declaredSelections = declared at noKey ⊢
  induction declared with
  | nil => rfl
  | cons d rest ih =>
    obtain ⟨first, noKey⟩ := List.forall_mem_cons.mp noKey
    obtain ⟨provided, required⟩ := Router.ConditionalField.mk.inj (ih noKey)
    rw [List.flatMap_cons, List.filter_append, List.filter_append, List.map_append, List.map_append, provided, required]
    cases use : d.use with
    | key => contradiction
    | provides | requires => simp [use, List.filter_map, Function.comp_def]

theorem Tracked.mem_foundConditions (tracked : a.Tracked) {e : FieldSetUse × String × Condition} :
    e ∈ a.foundConditions ↔ e.1 ≠ .key ∧ e.2 ∈ a.conditionsOf e.1 := by
  simp only [foundConditions, conditionsOf, List.mem_flatMap, List.mem_filter, List.mem_map, decide_eq_true_eq]
  constructor
  · rintro ⟨d, listed, found, made, rfl⟩
    exact ⟨tracked.use_ne_key listed, d, ⟨listed, rfl⟩, made⟩
  · rintro ⟨-, d, ⟨listed, use⟩, made⟩
    exact ⟨d, listed, e.2, made, by rw [use]⟩

end Assembly

section Normal

variable {text : String} {options : NormalizationOptions} {statements : List Statement} {n : NormalSubgraph}

/-- The conditional fields of a valid subgraph are the external fields that its provided and required field sets lead
to. Each has one condition for each way to it: from the field that provides, or from beside the field that requires,
along every selection down to the field itself. Keys make no conditions. -/
theorem conditionalFields_record_ways (read : Grammar.readStatements? text = some statements)
    (valid : (normalize options statements).result? = some n) :
    (∀ use : FieldSetUse, use ≠ .key → ∀ host name f, n.types.field? host name = some f →
      ∀ fieldSet ∈ f.directives.fieldSets use.directive,
        n.types.Follows (use.start host name) (use.target host f) fieldSet) ∧
    (∀ typeName name f, n.types.field? typeName name = some f → f.isExternal = true →
      (n.conditionalFields.getD (coordinates typeName name) .empty).providedBy.Perm
          (n.types.conditionsAt .provides typeName name) ∧
        (n.conditionalFields.getD (coordinates typeName name) .empty).requiredBy.Perm
          (n.types.conditionsAt .requires typeName name)) ∧
    ∀ path, path ∈ n.conditionalFields.keys ↔
      ∃ typeName name f, coordinates typeName name = path ∧ n.types.field? typeName name = some f ∧
        f.isExternal = true ∧
        ∃ way ∈ n.types.ways .provides ++ n.types.ways .requires, way.getLast? = some (typeName, name) := by
  obtain ⟨clean, rfl⟩ := result_of_normalize valid
  have tracked := Assembly.tracked_of read options.subgraph options.maxOrScopes
  have g := Assembly.grounded_of clean
  simp only [Assembly.errors, List.append_eq_nil_iff] at clean
  obtain ⟨⟨⟨⟨⟨-, quiet⟩, -⟩, -⟩, -⟩, -⟩ := clean
  generalize Assembly.of options.subgraph options.maxOrScopes statements = a at tracked g quiet ⊢
  have perm {use : FieldSetUse} (onField : use ≠ .key) := tracked.perm_conditionsOf g quiet onField
  change (∀ use : FieldSetUse, use ≠ .key → ∀ host name f, a.types.field? host name = some f → _) ∧
    (∀ typeName name f, a.types.field? typeName name = some f → _) ∧ ∀ path, path ∈ a.conditionalFields.keys ↔ _
  refine ⟨fun use onField host name f declared fieldSet written => ?follows,
    fun typeName name f declared external => ?conditions, fun path => ?keys⟩
  case follows =>
    rw [g.fieldSets_eq declared onField, Option.mem_toList] at written
    -- A field set that is written has been checked, and the check follows it from field to field.
    have made : _ ∈ a.types.declared use (host, name, f) :=
      List.mem_map.mpr ⟨fieldSet, Option.mem_toList.mpr written, rfl⟩
    have listed := (tracked.perm_declared onField).mem_iff.mpr
      (List.mem_flatMap.mpr ⟨_, Registry.mem_allFields.mpr declared, made⟩)
    obtain ⟨selections, -, checked⟩ := Registry.check_of_declared made
      (Assembly.accepted_of_fieldSetErrors quiet (List.mem_filter.mp listed).1)
    exact Registry.follows_of_check declared checked
  case conditions =>
    have ofUse {use : FieldSetUse} (onField : use ≠ .key) :=
      (((perm onField).filter (·.1 = coordinates typeName name)).map Prod.snd).trans
        (.of_eq (Registry.filter_condition? tracked.plain declared external _))
    change (a.conditionalFields.getD (coordinates typeName name) .empty).providedBy.Perm _ ∧
      (a.conditionalFields.getD (coordinates typeName name) .empty).requiredBy.Perm _
    rw [a.getD_conditionalFields, tracked.gather_foundConditions]
    exact ⟨ofUse nofun, ofUse nofun⟩
  case keys =>
    rw [a.mem_keys_conditionalFields]
    simp only [tracked.mem_foundConditions, List.mem_append]
    constructor
    · rintro ⟨⟨use, path, condition⟩, ⟨onField, made⟩, rfl⟩
      obtain ⟨way, member, ends⟩ := List.mem_filterMap.mp ((perm onField).mem_iff.mp made)
      obtain ⟨⟨typeName, name⟩, f, last, declared, external, same⟩ := Registry.condition?_eq_some_iff.mp ends
      refine ⟨typeName, name, f, (congrArg Prod.fst same).symm, declared, external, way, ?_, last⟩
      -- Keys make no conditions, so the way belongs to one of the two other uses.
      cases use with
      | key => contradiction
      | provides => exact .inl member
      | requires => exact .inr member
    · rintro ⟨typeName, name, f, rfl, declared, external, way, member, last⟩
      have ends := Registry.condition?_eq_some_iff.mpr ⟨(typeName, name), f, last, declared, external, rfl⟩
      have made {use : FieldSetUse} (onField : use ≠ .key) (member : way ∈ a.types.ways use) :=
        (perm onField).mem_iff.mpr (List.mem_filterMap.mpr ⟨way, member, ends⟩)
      rcases member with member | member
      · exact ⟨(.provides, _), ⟨nofun, made nofun member⟩, rfl⟩
      · exact ⟨(.requires, _), ⟨nofun, made nofun member⟩, rfl⟩

/-- A field that another subgraph resolves, two steps below the field that provides it and one below the field that
requires it. -/
def reachedText : String :=
  "type Query\x7ba:A @provides(fields:\"b\x7bc\x7d\")\x7dtype A\x7bb:B r:ID @requires(fields:\"b\x7bc\x7d\")\x7d" ++
    "type B\x7bc:ID @external\x7d"

theorem conditionalFields_record_ways_reached : ∃ statements n, Grammar.readStatements? reachedText = some statements ∧
    (normalize .default statements).result? = some n ∧ "B.c" ∈ n.conditionalFields.keys ∧
    (n.conditionalFields.getD "B.c" .empty).providedBy.Perm [⟨["Query.a", "A.b", "B.c"], ["a", "b", "c"]⟩] ∧
    (n.conditionalFields.getD "B.c" .empty).requiredBy.Perm [⟨["A.b", "B.c"], ["b", "c"]⟩] := by
  have checked : (Grammar.readStatements? reachedText).any (fun statements =>
      (normalize .default statements).result?.any fun n =>
        (n.types.field? "B" "c").any Field.isExternal &&
          decide (n.types.ways .provides = [[("Query", "a"), ("A", "b")], [("Query", "a"), ("A", "b"), ("B", "c")]]) &&
          decide (n.types.ways .requires = [[("A", "b")], [("A", "b"), ("B", "c")]])) = true := by
    decide +kernel
  obtain ⟨statements, read, checked⟩ := (Option.any_eq_true _ _).mp checked
  obtain ⟨n, valid, checked⟩ := (Option.any_eq_true _ _).mp checked
  simp only [Bool.and_eq_true, decide_eq_true_eq] at checked
  obtain ⟨⟨known, provided⟩, required⟩ := checked
  obtain ⟨f, declared, external⟩ := (Option.any_eq_true _ _).mp known
  obtain ⟨-, conditions, keys⟩ := conditionalFields_record_ways read valid
  obtain ⟨providedBy, requiredBy⟩ := conditions "B" "c" f declared external
  rw [Registry.conditionsAt, provided] at providedBy
  rw [Registry.conditionsAt, required] at requiredBy
  have conditional := (keys "B.c").mpr ⟨"B", "c", f, rfl, declared, external, [("A", "b"), ("B", "c")],
    by simp [required], rfl⟩
  exact ⟨statements, n, read, valid, conditional, providedBy, requiredBy⟩

end Normal

end Federation
