import Federation.FieldSet.Check
import Mathlib.Data.List.Basic

/-!
# Well-typed selections

The check of a field set finds no fault just where the selections are well typed: each is a field that its parent
declares, with selections of its own just where its type has fields. What is recorded of well-typed selections is what
a reader of the tree finds in it: the paths from the top to every selected field, in pre-order.
-/

namespace Federation

open Schema

/-- The registered types with fields are the objects and interfaces. -/
theorem Registry.isSome_composite?_iff {types : Registry} {typeName : String} :
    (types.composite? typeName).isSome = true ↔
      types.kind? typeName = some .object ∨ types.kind? typeName = some .interface := by
  unfold composite? kind?
  cases Table.get? types typeName with
  | none => simp
  | some entry =>
    rcases entry with ⟨_, _, _, _, _ | _ | _ | _ | _ | _⟩ <;>
      simp [TypeEntry.composite?, TypeEntry.kind, Shape.composite?, Shape.kind]

namespace FieldSet

variable {types : Registry} {use : FieldSetUse}

/-! ## Typing -/

/-- A selection that may stand on a parent type. -/
inductive WellTyped (types : Registry) (use : FieldSetUse) : String → Selection → Prop
  | leaf {parent name : String} {field : Field} (declared : types.field? parent name = some field)
      (noObject : types.kind? field.type.namedType ≠ some .object)
      (noInterface : types.kind? field.type.namedType ≠ some .interface)
      (noUnion : types.kind? field.type.namedType ≠ some .union) :
      WellTyped types use parent (.field name false false [])
  | nested {parent name : String} {field : Field} {selections : List Selection}
      (declared : types.field? parent name = some field)
      (allowed : types.kind? field.type.namedType = some .object ∨
        use ≠ .key ∧ types.kind? field.type.namedType = some .interface)
      (some_selection : selections ≠ [])
      (each : ∀ s ∈ selections, WellTyped types use field.type.namedType s) :
      WellTyped types use parent (.field name false false selections)

theorem wellTyped_field_iff {parent name : String} {hasArguments hasDirectives : Bool} {selections : List Selection} :
    WellTyped types use parent (.field name hasArguments hasDirectives selections) ↔
      hasArguments = false ∧ hasDirectives = false ∧ ∃ field, types.field? parent name = some field ∧
        (selections = [] ∧ types.kind? field.type.namedType ≠ some .object ∧
            types.kind? field.type.namedType ≠ some .interface ∧ types.kind? field.type.namedType ≠ some .union ∨
          selections ≠ [] ∧ (types.kind? field.type.namedType = some .object ∨
              use ≠ .key ∧ types.kind? field.type.namedType = some .interface) ∧
            ∀ s ∈ selections, WellTyped types use field.type.namedType s) := by
  constructor
  · rintro (⟨declared, noObject, noInterface, noUnion⟩ | ⟨declared, allowed, some_selection, each⟩)
    · exact ⟨rfl, rfl, _, declared, .inl ⟨rfl, noObject, noInterface, noUnion⟩⟩
    · exact ⟨rfl, rfl, _, declared, .inr ⟨some_selection, allowed, each⟩⟩
  · rintro ⟨rfl, rfl, field, declared, ⟨rfl, noObject, noInterface, noUnion⟩ | ⟨some_selection, allowed, each⟩⟩
    · exact .leaf declared noObject noInterface noUnion
    · exact .nested declared allowed some_selection each

theorem onComposite_eq_nil_iff {parent : String} {found : Composite → List FieldSetFault} :
    onComposite types parent found = [] ↔ ∃ c, types.composite? parent = some c ∧ found c = [] := by
  unfold onComposite
  cases types.composite? parent <;> simp

-- The faults of a selection are those found below it on the type of its field, so the induction is on the tree, for
-- every parent at once.
mutual

theorem selectionFaults_eq_nil_iff {parent : String} {c : Composite} (registered : types.composite? parent = some c) :
    ∀ s : Selection, selectionFaults types use parent c s = [] ↔ WellTyped types use parent s
  | .fragment => by simpa [selectionFaults] using fun typed => nomatch typed
  | .field name hasArguments hasDirectives selections => by
    have declared : types.field? parent name = c.fields.get? name := by simp [Registry.field?, registered]
    rw [wellTyped_field_iff, declared, selectionFaults]
    cases hasArguments with
    | true => simp
    | false =>
    cases hasDirectives with
    | true => simp
    | false =>
    cases c.fields.get? name with
    | none => simp
    | some field =>
      simp only [Bool.false_eq_true, ↓reduceIte, true_and, Option.some.injEq, exists_eq_left']
      have deeper : onComposite types field.type.namedType
            (fun c => listFaults types use field.type.namedType c selections) = [] ↔
          (types.composite? field.type.namedType).isSome = true ∧
            ∀ s ∈ selections, WellTyped types use field.type.namedType s := by
        rw [onComposite_eq_nil_iff, Option.isSome_iff_exists]
        constructor
        · rintro ⟨c', registered', quiet⟩
          exact ⟨⟨c', registered'⟩, (listFaults_eq_nil_iff registered' selections).mp quiet⟩
        · rintro ⟨⟨c', registered'⟩, each⟩
          exact ⟨c', registered', (listFaults_eq_nil_iff registered' selections).mpr each⟩
      rw [Registry.isSome_composite?_iff] at deeper
      unfold below
      -- What the kind of the field's type asks for is met or not by what is selected on it.
      generalize types.kind? field.type.namedType = kind at deeper ⊢
      rcases kind with _ | _ | _ | _ | _ | _ | _ <;> cases selections <;> by_cases key : use = .key <;>
        simp_all

theorem listFaults_eq_nil_iff {parent : String} {c : Composite} (registered : types.composite? parent = some c) :
    ∀ selections : List Selection, listFaults types use parent c selections = [] ↔
      ∀ s ∈ selections, WellTyped types use parent s
  | [] => by simp [listFaults]
  | s :: rest => by
    rw [listFaults, List.append_eq_nil_iff, selectionFaults_eq_nil_iff registered s,
      listFaults_eq_nil_iff registered rest, List.forall_mem_cons]

end

/-- Selections are accepted just where they are well typed on a type that has fields. -/
theorem faults_eq_nil_iff {parent : String} {selections : List Selection} :
    faults types use parent selections = [] ↔
      (types.kind? parent = some .object ∨ types.kind? parent = some .interface) ∧
        ∀ s ∈ selections, WellTyped types use parent s := by
  rw [← Registry.isSome_composite?_iff, Option.isSome_iff_exists, faults, onComposite_eq_nil_iff]
  constructor
  · rintro ⟨c, registered, quiet⟩
    exact ⟨⟨c, registered⟩, (listFaults_eq_nil_iff registered selections).mp quiet⟩
  · rintro ⟨⟨c, registered⟩, each⟩
    exact ⟨c, registered, (listFaults_eq_nil_iff registered selections).mpr each⟩

theorem check_eq_ok_iff {parent fieldSet : String} {selections : List Selection} :
    check types use parent fieldSet = .ok selections ↔
      Grammar.readFieldSet? fieldSet = some selections ∧ faults types use parent selections = [] := by
  unfold check
  cases Grammar.readFieldSet? fieldSet with
  | none => simp
  | some found =>
    dsimp only
    rw [Option.some.injEq]
    constructor
    · intro accepted
      split at accepted
      · next quiet => exact ⟨Except.ok.inj accepted, Except.ok.inj accepted ▸ quiet⟩
      · contradiction
    · rintro ⟨rfl, quiet⟩
      rw [quiet]

/-- What is refused is refused for some fault. -/
theorem check_ne_error_nil (types : Registry) (use : FieldSetUse) (parent fieldSet : String) :
    check types use parent fieldSet ≠ .error [] := by
  unfold check
  split
  · nofun
  · split
    · nofun
    · next found => exact fun same => found (Except.error.inj same)

/-! ## Paths -/

mutual

/-- The path to a selected field and the paths to all fields selected below it, in pre-order. -/
def paths : Selection → List (List String)
  | .fragment => []
  | .field name _ _ selections => [name] :: (listPaths selections).map (name :: ·)

def listPaths : List Selection → List (List String)
  | [] => []
  | s :: rest => paths s ++ listPaths rest

end

/-- The type on which the last field of a path is selected, and this field. -/
def place? (types : Registry) : String → List String → Option (String × String)
  | _, [] => none
  | parent, [name] => some (parent, name)
  | parent, name :: next :: rest =>
    (types.field? parent name).bind fun field => place? types field.type.namedType (next :: rest)

theorem place?_cons {parent name : String} {path : List String} (longer : path ≠ []) :
    place? types parent (name :: path) =
      (types.field? parent name).bind fun field => place? types field.type.namedType path := by
  cases path with
  | nil => contradiction
  | cons next rest => rfl

/-- A path ends with the field that is selected at its place. -/
theorem getLast?_of_place? {parent : String} {path : List String} {place : String × String}
    (found : place? types parent path = some place) : path.getLast? = some place.2 := by
  fun_induction place? types parent path with
  | case1 => contradiction
  | case2 parent name => exact Option.some.inj found ▸ rfl
  | case3 parent name next rest ih =>
    obtain ⟨field, -, deeper⟩ := Option.bind_eq_some_iff.mp found
    rw [List.getLast?_cons_cons]
    exact ih field deeper

theorem listPaths_eq (selections : List Selection) : listPaths selections = selections.flatMap paths := by
  induction selections with
  | nil => rfl
  | cons s rest ih => rw [listPaths, ih, List.flatMap_cons]

theorem ne_nil_of_mem_listPaths {selections : List Selection} {path : List String}
    (member : path ∈ listPaths selections) : path ≠ [] := by
  rw [listPaths_eq] at member
  obtain ⟨_ | ⟨name⟩, -, own⟩ := List.mem_flatMap.mp member
  · rcases List.mem_cons.mp own with rfl | deeper
    · exact List.cons_ne_nil _ _
    · obtain ⟨_, -, rfl⟩ := List.mem_map.mp deeper
      exact List.cons_ne_nil _ _
  · exact absurd own List.not_mem_nil

/-- A path that goes on below a field goes on from the type of the field. -/
theorem place?_below {parent name : String} {selections : List Selection} {path : List String}
    (member : path ∈ listPaths selections) :
    place? types parent (name :: path) =
      (types.field? parent name).bind fun field => place? types field.type.namedType path :=
  place?_cons (ne_nil_of_mem_listPaths member)

/-- The coordinates of the fields at the end of some paths. -/
def coordinatesOn (types : Registry) (parent : String) (paths : List (List String)) : List String :=
  (paths.filterMap (place? types parent)).map fun place => coordinates place.1 place.2

mutual

theorem selectedCoordinates_eq (parent : String) :
    ∀ s : Selection, selectedCoordinates types parent s = coordinatesOn types parent (paths s)
  | .fragment => rfl
  | .field name hasArguments hasDirectives selections => by
    have top : coordinatesOn types parent (paths (.field name hasArguments hasDirectives selections)) =
        coordinates parent name :: coordinatesOn types parent ((listPaths selections).map (name :: ·)) := rfl
    rw [selectedCoordinates, top, coordinatesOn, List.filterMap_map]
    congr 1
    have below : (listPaths selections).filterMap (place? types parent ∘ (name :: ·)) =
        (listPaths selections).filterMap fun path =>
          (types.field? parent name).bind fun field => place? types field.type.namedType path :=
      List.filterMap_congr fun path member => place?_below member
    rw [below]
    cases types.field? parent name with
    | none => simp
    | some field => exact listCoordinates_eq field.type.namedType selections

theorem listCoordinates_eq (parent : String) :
    ∀ selections : List Selection,
      listCoordinates types parent selections = coordinatesOn types parent (listPaths selections)
  | [] => rfl
  | s :: rest => by
    rw [listCoordinates, selectedCoordinates_eq parent s, listCoordinates_eq parent rest, listPaths, coordinatesOn,
      coordinatesOn, coordinatesOn, List.filterMap_append, List.map_append]

end

/-- Every path in a well-typed selection leads through declared fields to one. -/
theorem WellTyped.exists_place? {parent : String} {s : Selection} (typed : WellTyped types use parent s) :
    ∀ path ∈ paths s, ∃ place, place? types parent path = some place ∧
      (types.field? place.1 place.2).isSome = true := by
  induction typed with
  | leaf declared => simp [paths, listPaths, place?, declared]
  | @nested parent name field selections declared allowed some_selection each ih =>
    intro path member
    rcases List.mem_cons.mp member with rfl | deeper
    · exact ⟨_, rfl, by simp [declared]⟩
    · obtain ⟨path, below, rfl⟩ := List.mem_map.mp deeper
      rw [place?_below below, declared]
      rw [listPaths_eq] at below
      obtain ⟨s, selected, own⟩ := List.mem_flatMap.mp below
      exact ih s selected path own

/-- Every path in selections without faults leads through declared fields to one. -/
theorem exists_place?_of_faults {parent : String} {selections : List Selection}
    (quiet : faults types use parent selections = []) :
    ∀ path ∈ listPaths selections, ∃ place, place? types parent path = some place ∧
      (types.field? place.1 place.2).isSome = true := by
  intro path member
  rw [listPaths_eq] at member
  obtain ⟨s, selected, own⟩ := List.mem_flatMap.mp member
  exact ((faults_eq_nil_iff.mp quiet).2 s selected).exists_place? path own

theorem mem_listCoordinates {parent here : String} {selections : List Selection} :
    here ∈ listCoordinates types parent selections ↔
      ∃ path ∈ listPaths selections, ∃ place, place? types parent path = some place ∧
        coordinates place.1 place.2 = here := by
  rw [listCoordinates_eq, coordinatesOn, List.mem_map]
  simp only [List.mem_filterMap]
  constructor
  · rintro ⟨place, ⟨path, selected, found⟩, same⟩
    exact ⟨path, selected, place, found, same⟩
  · rintro ⟨path, selected, place, found, same⟩
    exact ⟨place, ⟨path, selected, found⟩, same⟩

theorem mem_topLevelNames {name : String} {selections : List Selection} :
    name ∈ topLevelNames selections ↔ [name] ∈ listPaths selections := by
  rw [topLevelNames, List.mem_filterMap, listPaths_eq, List.mem_flatMap]
  refine exists_congr fun s => and_congr_right fun _ => ?_
  cases s with
  | fragment => simp [paths]
  | field other _ _ below =>
    have deeper : [name] ∉ (listPaths below).map (other :: ·) := by
      rintro member
      obtain ⟨path, below, same⟩ := List.mem_map.mp member
      exact ne_nil_of_mem_listPaths below (List.cons.inj same).2
    simp [paths, deeper, eq_comm]

/-- Exactly the well-typed selections on objects and interfaces are accepted. Of these, the coordinates of each selected
field are recorded in pre-order, and at the top just the names that are selected there. -/
theorem accepts_wellTyped (types : Registry) (use : FieldSetUse) (parent : String) (selections : List Selection) :
    (faults types use parent selections = [] ↔
      (types.kind? parent = some .object ∨ types.kind? parent = some .interface) ∧
        ∀ s ∈ selections, WellTyped types use parent s) ∧
    (faults types use parent selections = [] →
      (listCoordinates types parent selections).map some = (listPaths selections).map (fun path =>
        (place? types parent path).map fun place => coordinates place.1 place.2) ∧
      ∀ name, name ∈ topLevelNames selections ↔ [name] ∈ listPaths selections) := by
  refine ⟨faults_eq_nil_iff, fun quiet => ⟨?_, fun name => mem_topLevelNames⟩⟩
  have placed := exists_place?_of_faults quiet
  rw [listCoordinates_eq, coordinatesOn, List.map_map]
  -- Every path leads somewhere, so that the two lists keep step.
  generalize listPaths selections = all at placed ⊢
  induction all with
  | nil => rfl
  | cons path rest ih =>
    obtain ⟨here, later⟩ := List.forall_mem_cons.mp placed
    obtain ⟨place, found, -⟩ := here
    rw [List.filterMap_cons_some found, List.map_cons, ih later, List.map_cons, found]
    rfl

/-- Books with authors. -/
def bookTypes : Registry :=
  let field (type : String) : Field := ⟨.named type true, .empty, .empty, none, false⟩
  let object (fields : List (String × Field)) : TypeEntry :=
    ⟨none, .empty, .none, true, .object ⟨.ofList fields, .empty⟩⟩
  .ofList [("Book", object [("isbn", field "ID"), ("author", field "Author")]),
    ("Author", object [("name", field "String")])]

/-- The key of a book: its number and the name of its author. -/
def bookKey : List Selection :=
  [.field "isbn" false false [], .field "author" false false [.field "name" false false []]]

theorem accepts_wellTyped_book : faults bookTypes .key "Book" bookKey = [] ∧
    (∀ s ∈ bookKey, WellTyped bookTypes .key "Book" s) ∧
    listCoordinates bookTypes "Book" bookKey = ["Book.isbn", "Book.author", "Author.name"] ∧
    ∀ name, name ∈ topLevelNames bookKey ↔ [name] ∈ [["isbn"], ["author"], ["author", "name"]] := by
  have quiet : faults bookTypes .key "Book" bookKey = [] := by
    rw [← List.isEmpty_iff]
    decide +kernel
  obtain ⟨typed, recorded⟩ := accepts_wellTyped bookTypes .key "Book" bookKey
  obtain ⟨ordered, top⟩ := recorded quiet
  refine ⟨quiet, (typed.mp quiet).2, ?_, top⟩
  exact List.map_injective_iff.mpr (fun _ _ => Option.some.inj) (ordered.trans rfl)

end FieldSet

end Federation
