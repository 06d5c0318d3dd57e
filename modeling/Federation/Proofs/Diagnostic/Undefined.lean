import Federation.Proofs.Normalization.Override
import Federation.Proofs.Normalization.Setting
import Federation.Proofs.Survey.Orderly
import Federation.Proofs.Survey.Report

/-!
# Types that are reported as undefined

Two parts of an assembly report types that nothing defines: every type with a list of interfaces looks these up by
itself, and root types and references are looked up together, each name once. So a name is reported once for each list
that has it, and once more if anything else refers to it. It is reported once in all just where only one of these
applies.
-/

namespace Federation

open Schema

namespace Error

/-- Whether a type is said to be undefined. -/
def isUndefined (name : String) : Error → Bool
  | undefinedType other => other = name
  | _ => false

/-- Only the assembly finds that a type is undefined. -/
theorem isUndefined_of_stage (name : String) {stage : Stage} (other : stage ≠ .assembly) (e : Error)
    (here : e.stage = stage) : e.isUndefined name = false := by
  cases e <;> first | rfl | exact absurd here.symm other

theorem filter_map_undefinedType (names : List String) (name : String) :
    (names.map undefinedType).filter (·.isUndefined name) = List.replicate (names.count name) (undefinedType name) := by
  induction names with
  | nil => rfl
  | cons first rest ih =>
    rw [List.map_cons, List.filter_cons, ih, List.count_cons]
    by_cases same : first = name
    · simp [isUndefined, same, List.replicate_succ]
    · simp [isUndefined, same]

end Error

/-- A list counts an element in as many of its parts as have it, if no part repeats it. -/
theorem count_flatMap_of_nodup {α β : Type} [DecidableEq β] {parts : α → List β} (nodup : ∀ x, (parts x).Nodup)
    (xs : List α) (b : β) : (xs.flatMap parts).count b = (xs.filter (b ∈ parts ·)).length := by
  induction xs with
  | nil => rfl
  | cons x rest ih =>
    rw [List.flatMap_cons, List.count_append, ih, (nodup x).count, List.filter_cons]
    by_cases member : b ∈ parts x <;> simp [member, Nat.add_comm]

/-- The types that a type refers to otherwise than as interfaces. -/
def Shape.references : Shape → List String
  | .enum _ | .scalar => []
  | .inputObject fields => fields.values.map fun v => v.type.namedType
  | .interface c | .object c => c.fields.values.flatMap fun f =>
      f.type.namedType :: f.arguments.values.map fun v => v.type.namedType
  | .union members => members.toList

/-- What a type refers to has been noted. -/
theorem Shape.Orderly.referenced_of_references {setting : Setting} {s : Survey} {shape : Shape}
    (orderly : shape.Orderly setting s) {name : String} (refers : name ∈ shape.references)
    (noScalar : name ∉ Vocabulary.builtInScalars) : name ∈ s.referenced.toList := by
  have composite {c : Composite} (orderly : ∀ field f, c.fields.get? field = some f → f.Orderly setting s)
      (refers : name ∈ c.fields.values.flatMap fun f =>
        f.type.namedType :: f.arguments.values.map fun v => v.type.namedType) : name ∈ s.referenced.toList := by
    obtain ⟨f, inside, refers⟩ := List.mem_flatMap.mp refers
    obtain ⟨field, known⟩ := Table.mem_values.mp inside
    have own := orderly field f known
    rcases List.mem_cons.mp refers with rfl | ofArgument
    · exact own.referenced
    · obtain ⟨v, inside, rfl⟩ := List.mem_map.mp ofArgument
      obtain ⟨argument, known⟩ := Table.mem_values.mp inside
      exact (own.arguments argument v known).referenced
  cases shape with
  | enum | scalar => exact absurd refers List.not_mem_nil
  | interface c | object c => exact composite orderly refers
  | union members => exact orderly name refers noScalar
  | inputObject fields =>
    obtain ⟨v, inside, rfl⟩ := List.mem_map.mp refers
    obtain ⟨field, known⟩ := Table.mem_values.mp inside
    exact (orderly field v known).referenced

namespace Survey

/-- A walk reports nothing as undefined. -/
theorem filter_isUndefined_walk (setting : Setting) (statements : List Statement) {errors : List Error} (name : String)
    (before : errors.filter (·.isUndefined name) = []) :
    (walk setting errors statements).errors.filter (·.isUndefined name) = [] := by
  have blind {stage : Stage} (other : stage ≠ .assembly) := Error.isUndefined_of_stage name other
  refine walk_recOn (motive := fun s => s.errors.filter (·.isUndefined name) = []) before fun s x _ l _ so_far => ?_
  -- A merge may report a second base definition, and any other look reports on declarations alone.
  have merged (isExtension : Bool) (t : TypeDefinition) :
      (s.merge setting isExtension t).errors.filter (·.isUndefined name) = [] := by
    obtain ⟨found, here, added⟩ := errors_merge setting s isExtension t
    rw [added, List.filter_append, List.filter_append, so_far, here.filter_eq_nil (blind (by decide))]
    split <;> rfl
  have declared {s' : Survey} (declares : Declares s s') : s'.errors.filter (·.isUndefined name) = [] :=
    (declares.filter_errors (blind (by decide))).trans so_far
  have declares := declares_look setting s l
  have looked := looked_look setting s l
  generalize s.look setting l = s' at declares looked ⊢
  cases looked with
  | retained noType => exact declared (declares noType)
  | passed | duplicate | field => exact declared (declares nofun)
  | type => exact merged _ _
  | conflict =>
    rw [report, List.filter_append, so_far]
    rfl

end Survey

namespace Assembly

variable (a : Assembly)

/-! ## What each part reports -/

/-- The types that list a name as an interface. Those with the name of a scalar of every document are not looked at. -/
def implementers (name : String) : List String :=
  (a.ownComposites.filter fun (_, _, c) => name ∈ c.implements.toList).map Prod.fst

/-- Whether anything but a list of interfaces refers to a type that is not implied: the schema, to the root type of an
operation, or the survey, which has noted the types of fields, arguments and input fields and the members of unions.
The root type counts even if its name is an implied one, but not where it is shadowed. -/
def Mentions (name : String) : Prop :=
  (∃ operation ∈ Operation.all,
      a.setting.roots.byOperation.get? operation = some name ∧ a.isShadowed operation = false) ∨
    name ∉ Vocabulary.impliedTypes ∧ name ∈ a.survey.referenced.toList

instance (a : Assembly) (name : String) : Decidable (a.Mentions name) := inferInstanceAs (Decidable (_ ∨ _))

/-- What is undefined among the interfaces of all types, type by type. -/
def undefinedInterfaces : List String :=
  a.ownComposites.flatMap fun (typeName, _, c) => Implementation.undefinedNames a.types typeName c

variable (name : String)

theorem filter_compositeErrors (typeName : String) (entry : TypeEntry) (c : Composite) :
    (a.compositeErrors typeName entry c).filter (·.isUndefined name) =
      ((Implementation.undefinedNames a.types typeName c).map Error.undefinedType).filter (·.isUndefined name) := by
  have arguments : (a.argumentErrors typeName c).filter (·.isUndefined name) = [] := by
    refine List.filter_eq_nil_iff.mpr fun e found => ?_
    obtain ⟨_, -, made⟩ := List.mem_filterMap.mp found
    grind [Error.isUndefined]
  simp only [compositeErrors, implementationErrors, List.filter_append, arguments]
  grind [Error.isUndefined]

theorem filter_typeErrors :
    (a.ownTypes.flatMap fun (typeName, entry) => a.typeErrors typeName entry).filter (·.isUndefined name) =
      (a.undefinedInterfaces.map Error.undefinedType).filter (·.isUndefined name) := by
  rw [undefinedInterfaces, ownComposites, List.filterMap_eq_flatMap_toList, List.flatMap_assoc, List.map_flatMap,
    List.filter_flatMap, List.filter_flatMap]
  refine List.flatMap_congr fun e _ => ?_
  obtain ⟨typeName, entry⟩ := e
  dsimp only [typeErrors, TypeEntry.composite?]
  cases entry.shape with
  | interface c | object c => simpa [Shape.composite?] using filter_compositeErrors a name typeName entry c
  | enum | inputObject | scalar | union =>
    -- Without fields there are no interfaces either.
    change _ = []
    grind [Error.isUndefined]

/-- Nothing else that an assembly finds is about undefined types. -/
theorem filter_others : (a.scopeErrors ++ Operation.all.flatMap a.rootErrors ++ a.fieldSetErrors ++
    a.clientDirectiveErrors ++ a.eventErrors ++ a.filterErrors ++
    if a.setting.isVersionTwo then a.unusedExternals.map Error.unusedExternal else []).filter
      (·.isUndefined name) = [] := by
  refine List.filter_eq_nil_iff.mpr fun e found => ?_
  simp only [List.mem_append, or_assoc] at found
  -- Each part has errors of its own, and none of them is about undefined types.
  rcases found with scopes | roots | sets | directives | events | filters | unused
  · unfold scopeErrors at scopes
    grind [Error.isUndefined]
  · obtain ⟨operation, -, root⟩ := List.mem_flatMap.mp roots
    unfold rootErrors at root
    grind [Error.isUndefined]
  · unfold fieldSetErrors FieldSet.keyErrors FieldSet.selectionErrors at sets
    grind [Error.isUndefined]
  · unfold clientDirectiveErrors at directives
    grind [Error.isUndefined]
  · unfold eventErrors at events
    grind [Error.isUndefined]
  · unfold filterErrors at filters
    grind [Error.isUndefined]
  · grind [Error.isUndefined]

theorem filter_isUndefined_errors (silent : a.survey.errors.filter (·.isUndefined name) = []) :
    a.errors.filter (·.isUndefined name) =
      List.replicate ((a.undefinedInterfaces ++ a.undefinedNames).count name) (.undefinedType name) := by
  have others := a.filter_others name
  simp only [List.filter_append, List.append_eq_nil_iff] at others
  obtain ⟨⟨⟨⟨⟨⟨scopes, roots⟩, sets⟩, directives⟩, events⟩, filters⟩, unused⟩ := others
  simp only [errors, List.filter_append, silent, scopes, roots, sets, directives, events, filters, unused,
    filter_typeErrors, List.nil_append, List.append_nil]
  rw [← List.filter_append, ← List.map_append, Error.filter_map_undefinedType]

/-! ## How often a name is reported -/

theorem mem_undefinedNames_iff {typeName : String} {c : Composite} :
    name ∈ Implementation.undefinedNames a.types typeName c ↔
      name ∈ c.implements.toList ∧ a.types.contains name = false := by
  rw [Implementation.undefinedNames, List.mem_filter, ← Bool.not_eq_true, Table.contains_iff, ← Table.get?_eq_none_iff]
  unfold Implementation.target
  cases a.types.get? name with
  | none => simp
  | some entry => cases entry.shape <;> simp <;> grind

/-- A name that is not registered is listed as undefined by each type that implements it. -/
theorem count_undefinedInterfaces :
    a.undefinedInterfaces.count name = if a.types.contains name then 0 else (a.implementers name).length := by
  have nodup (e : String × TypeEntry × Composite) : (Implementation.undefinedNames a.types e.1 e.2.2).Nodup :=
    e.2.2.implements.nodup.filter _
  rw [undefinedInterfaces, count_flatMap_of_nodup nodup, implementers, List.length_map]
  simp only [mem_undefinedNames_iff]
  cases a.types.contains name <;> simp

theorem nodup_implementers : (a.implementers name).Nodup :=
  a.nodup_ownComposites.sublist (List.filter_sublist.map _)

variable {a name}

theorem isUnknown_iff :
    a.isUnknown name = true ↔ name ∉ Vocabulary.impliedTypes ∧ a.types.contains name = false := by
  simp [isUnknown]

/-- A declared root type that is missing is undefined. -/
theorem mem_undefinedAtRoot_of_declared {operation : Operation}
    (declared : a.setting.roots.byOperation.get? operation = some name) (plain : a.isShadowed operation = false)
    (missing : a.types.contains name = false) : name ∈ a.undefinedAtRoot operation := by
  have absent : a.types.get? name = none :=
    Table.get?_eq_none_iff.mpr fun present => Bool.eq_false_iff.mp missing (Table.contains_iff.mpr present)
  simp [undefinedAtRoot, rootName, declared, plain, absent]

/-- What a root type leaves undefined is itself or the type of a field, which is noted as referred to. -/
theorem of_mem_undefinedAtRoot {setting : Setting} (orderly : a.survey.Orderly setting) {operation : Operation}
    (undefined : name ∈ a.undefinedAtRoot operation) : a.types.contains name = false ∧ a.Mentions name := by
  unfold undefinedAtRoot at undefined
  dsimp only at undefined
  split at undefined
  · nomatch undefined
  next plain =>
  split at undefined
  · next missing =>
    -- The default root type may be missing, so only a declared one counts.
    unfold rootName at undefined missing
    cases declared : a.setting.roots.byOperation.get? operation with
    | none => simp [declared] at undefined
    | some root =>
      obtain rfl : name = root := by simpa [declared] using undefined
      have absent : a.types.get? name = none := by simpa [declared] using missing
      exact ⟨Bool.eq_false_iff.mpr fun present => Table.get?_eq_none_iff.mp absent (Table.contains_iff.mp present),
        .inl ⟨operation, operation.mem_all, declared, Bool.eq_false_iff.mpr plain⟩⟩
  · next c found =>
    -- A registered field has been sighted, and its type was noted then.
    obtain ⟨typed, unknown⟩ := List.mem_filter.mp undefined
    obtain ⟨implied, unregistered⟩ := isUnknown_iff.mp unknown
    obtain ⟨f, inside, rfl⟩ := List.mem_map.mp typed
    obtain ⟨field, known⟩ := Table.mem_values.mp inside
    obtain ⟨entry, registered, shape⟩ := Option.map_eq_some_iff.mp found
    have composite : entry.shape.composite? = some c := by rw [shape]; rfl
    exact ⟨unregistered, .inr ⟨implied, ((orderly.types _ entry registered).shape.field composite known).referenced⟩⟩
  · nomatch undefined

/-- What root types and references leave undefined is what is mentioned and not registered. -/
theorem mem_undefinedNames {setting : Setting} (orderly : a.survey.Orderly setting) :
    name ∈ a.undefinedNames ↔ a.types.contains name = false ∧ a.Mentions name := by
  rw [undefinedNames, OrderedSet.mem_ofList, List.mem_append, List.mem_filter, List.mem_flatMap]
  constructor
  · rintro (⟨operation, -, undefined⟩ | ⟨referenced, unknown⟩)
    · exact of_mem_undefinedAtRoot orderly undefined
    · obtain ⟨implied, unregistered⟩ := isUnknown_iff.mp unknown
      exact ⟨unregistered, .inr ⟨implied, referenced⟩⟩
  · rintro ⟨unregistered, ⟨operation, among, declared, plain⟩ | ⟨implied, referenced⟩⟩
    · exact .inl ⟨operation, among, mem_undefinedAtRoot_of_declared declared plain unregistered⟩
    · exact .inr ⟨referenced, isUnknown_iff.mpr ⟨implied, unregistered⟩⟩

theorem count_undefinedNames {setting : Setting} (orderly : a.survey.Orderly setting) :
    a.undefinedNames.count name = if a.types.contains name then 0 else if a.Mentions name then 1 else 0 := by
  have nodup : a.undefinedNames.Nodup := OrderedSet.nodup _
  rw [nodup.count]
  simp only [mem_undefinedNames orderly]
  cases a.types.contains name <;> simp

end Assembly

/-- A name that is not registered is reported as undefined by each type that lists it as an interface, and once more if
anything else refers to it, as every registered type does to what is in it. So no name is reported twice just where none
is listed by two types, or listed by one and mentioned elsewhere. -/
theorem undefined_reported_once_iff (options : NormalizationOptions) (statements : List Statement) :
    let a := Assembly.of options.subgraph options.maxOrScopes statements
    let reported (name : String) :=
      (normalize options statements).diagnostics.errors.filter (·.isUndefined name)
    (∀ name, (a.implementers name).Nodup ∧ reported name = List.replicate
      (if a.types.contains name then 0 else (a.implementers name).length + if a.Mentions name then 1 else 0)
      (.undefinedType name)) ∧
    (∀ typeName entry, a.types.get? typeName = some entry → ∀ name ∈ entry.shape.references,
      name ∉ Vocabulary.impliedTypes → a.Mentions name) ∧
    ((∀ name, (reported name).length ≤ 1) ↔ ∀ name, a.types.contains name = false →
      (a.implementers name).length ≤ 1 ∧ (a.implementers name ≠ [] → ¬ a.Mentions name)) := by
  intro a reported
  have orderly : a.survey.Orderly a.setting := Survey.orderly_walk fun x listed d member =>
    Setting.mem_applied_of.mpr ⟨d, List.mem_flatMap.mpr ⟨x, listed, member⟩, rfl⟩
  have exact : ∀ name, reported name = List.replicate
      (if a.types.contains name then 0 else (a.implementers name).length + if a.Mentions name then 1 else 0)
      (.undefinedType name) := by
    intro name
    have blind {stage : Stage} (other : stage ≠ .assembly) := Error.isUndefined_of_stage name other
    have silent : a.survey.errors.filter (·.isUndefined name) = [] :=
      Survey.filter_isUndefined_walk _ statements name
        ((Setting.finds_of options.subgraph options.maxOrScopes statements).filter_eq_nil (blind (by decide)))
    -- What comes before the assembly leaves this part of its errors to it.
    calc reported name
      _ = a.errors.filter (·.isUndefined name) := filter_normalize options statements (blind (by decide))
      _ = List.replicate ((a.undefinedInterfaces ++ a.undefinedNames).count name) (.undefinedType name) :=
        a.filter_isUndefined_errors name silent
      _ = _ := by
        rw [List.count_append, a.count_undefinedInterfaces, Assembly.count_undefinedNames orderly]
        cases a.types.contains name <;> rfl
  have mentioned : ∀ typeName entry, a.types.get? typeName = some entry → ∀ name ∈ entry.shape.references,
      name ∉ Vocabulary.impliedTypes → a.Mentions name := by
    intro typeName entry registered name refers implied
    have noScalar : name ∉ Vocabulary.builtInScalars := fun scalar => implied (List.mem_append_left _ scalar)
    exact .inr ⟨implied, (orderly.types typeName entry registered).shape.referenced_of_references refers noScalar⟩
  refine ⟨fun name => ⟨a.nodup_implementers name, exact name⟩, mentioned, forall_congr' fun name => ?_⟩
  rw [exact, List.length_replicate]
  cases registered : a.types.contains name with
  | true => simp
  | false =>
    -- Beside a list of interfaces there is no room for a second report.
    cases a.implementers name with
    | nil => by_cases mentioned : a.Mentions name <;> simp [mentioned]
    | cons first others => by_cases mentioned : a.Mentions name <;> simp [mentioned]

/-- However many references there are, without a list of interfaces they make one error. -/
example : ((normalize ⟨some "s", 16, false⟩ [.extendSchema ⟨[], [(.mutation, "Missing")]⟩,
    .define (.type ⟨"Query", none, [], .object [] [⟨"a", none, [⟨"x", none, .named "Missing" false, none, []⟩],
      .named "Missing" false, []⟩]⟩),
    .define (.type ⟨"U", none, [], .union ["Missing"]⟩)]).diagnostics.errors.filter
      (·.isUndefined "Missing")).length = 1 := by
  decide +kernel

/-- A field refers to a type that is not defined, and an object lists it as an interface. -/
def missingTwice : List Statement :=
  [.define (.type ⟨"Query", none, [], .object [] [⟨"a", none, [], .named "Missing" false, []⟩]⟩),
    .define (.type ⟨"T", none, [], .object ["Missing"] [⟨"x", none, [], .named "Int" false, []⟩]⟩)]

/-- The list of interfaces and the reference each make an error. -/
theorem undefined_reported_twice : ¬ ∀ name, ((normalize ⟨some "s", 16, false⟩ missingTwice).diagnostics.errors.filter
    (·.isUndefined name)).length ≤ 1 := by
  have twice : ((normalize ⟨some "s", 16, false⟩ missingTwice).diagnostics.errors.filter
      (·.isUndefined "Missing")).length = 2 := by
    decide +kernel
  exact fun once => absurd (once "Missing") (by rw [twice]; decide)

end Federation
