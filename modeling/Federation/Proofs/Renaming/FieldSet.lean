import Federation.FieldSet.Declared
import Federation.Proofs.Renaming.Registry

/-!
# Field sets in a renamed registry

Field sets mention fields and no types, so they stay as they are. What they select is found under the new names, and
they may stand on a type where they might before.
-/

namespace Federation

open Schema

variable {ρ : Renaming}

theorem Renaming.coordinates (parent field : String) : ρ (coordinates parent field) = coordinates (ρ parent) field :=
  ρ.path parent field

namespace FieldSet

variable (types : Registry) (use : FieldSetUse)

theorem below_rename (typeName : String) : below (types.rename ρ) use (ρ typeName) = below types use typeName := by
  simp [below]

theorem onComposite_rename (parent : String) {faults faults' : Composite → List FieldSetFault}
    (same : ∀ c, faults' (c.rename ρ) = [] ↔ faults c = []) :
    onComposite (types.rename ρ) (ρ parent) faults' = [] ↔ onComposite types parent faults = [] := by
  simp only [onComposite, Registry.composite?_rename]
  cases types.composite? parent with
  | none => simp
  | some c => exact same c

-- Each selection is checked on the type of its field, and the types of the two registries go along.
mutual

theorem selectionFaults_rename (parent : String) (c : Composite) : ∀ s : Selection,
    selectionFaults (types.rename ρ) use (ρ parent) (c.rename ρ) s = [] ↔ selectionFaults types use parent c s = []
  | .fragment => by simp [selectionFaults]
  | .field name hasArguments hasDirectives selections => by
    simp only [selectionFaults, Composite.fields_rename, Table.get?_map]
    split
    · simp
    split
    · simp
    cases c.fields.get? name with
    | none => simp
    | some field =>
      simp only [Option.map_some, Field.type_rename, TypeRef.namedType_rename, below_rename]
      have deeper : onComposite (types.rename ρ) (ρ field.type.namedType) (fun c =>
          listFaults (types.rename ρ) use (ρ field.type.namedType) c selections) = [] ↔
            onComposite types field.type.namedType (fun c =>
              listFaults types use field.type.namedType c selections) = [] :=
        onComposite_rename types _ fun c => listFaults_rename field.type.namedType c selections
      split <;> simp_all

theorem listFaults_rename (parent : String) (c : Composite) : ∀ selections : List Selection,
    listFaults (types.rename ρ) use (ρ parent) (c.rename ρ) selections = [] ↔
      listFaults types use parent c selections = []
  | [] => by simp [listFaults]
  | s :: rest => by
    simp only [listFaults, List.append_eq_nil_iff]
    rw [selectionFaults_rename parent c s, listFaults_rename parent c rest]

end

theorem faults_rename (parent : String) (selections : List Selection) :
    faults (types.rename ρ) use (ρ parent) selections = [] ↔ faults types use parent selections = [] :=
  onComposite_rename types parent fun c => listFaults_rename types use parent c selections

mutual

theorem selectedCoordinates_rename (parent : String) : ∀ s : Selection,
    selectedCoordinates (types.rename ρ) (ρ parent) s = (selectedCoordinates types parent s).map ρ
  | .fragment => rfl
  | .field name _ _ selections => by
    simp only [selectedCoordinates, Registry.field?_rename, List.map_cons, Renaming.coordinates]
    cases types.field? parent name with
    | none => rfl
    | some field =>
      simp only [Option.map_some, Field.type_rename, TypeRef.namedType_rename]
      rw [listCoordinates_rename field.type.namedType selections]

theorem listCoordinates_rename (parent : String) : ∀ selections : List Selection,
    listCoordinates (types.rename ρ) (ρ parent) selections = (listCoordinates types parent selections).map ρ
  | [] => rfl
  | s :: rest => by
    simp only [listCoordinates, List.map_append]
    rw [selectedCoordinates_rename parent s, listCoordinates_rename parent rest]

end

/-! ## Declared field sets -/

/-- Outcomes of two checks that are the same but for what the faults name. -/
inductive SameOutcome : (outcome outcome' : Except (List FieldSetFault) (List Selection)) → Prop
  | ok (selections : List Selection) : SameOutcome (.ok selections) (.ok selections)
  | error {faults faults' : List FieldSetFault} (faulty : faults ≠ []) (faulty' : faults' ≠ []) :
    SameOutcome (.error faults) (.error faults')

theorem sameOutcome_check (parent fieldSet : String) :
    SameOutcome (check types use parent fieldSet) (check (types.rename ρ) use (ρ parent) fieldSet) := by
  unfold check
  cases Grammar.readFieldSet? fieldSet with
  | none => exact .error (List.cons_ne_nil _ _) (List.cons_ne_nil _ _)
  | some selections =>
    have same := faults_rename (ρ := ρ) types use parent selections
    dsimp only
    split <;> split
    · exact .ok selections
    · next sound _ faulty => exact absurd (same.mpr sound) faulty
    · next faulty _ sound => exact absurd (same.mp sound) faulty
    · next faulty _ faulty' => exact .error faulty faulty'

/-- What two keys have in common of which one is the other on a renamed type. -/
structure DeclaredKey.Mirrors (ρ : Renaming) (k k' : DeclaredKey) : Prop where
  typeName : k'.typeName = ρ k.typeName
  fieldSet : k'.fieldSet = k.fieldSet
  isResolvable : k'.isResolvable = k.isResolvable
  outcome : SameOutcome k.outcome k'.outcome

namespace DeclaredKey.Mirrors

variable {k k' : DeclaredKey} (h : k.Mirrors ρ k')

include h

theorem isBlank : k'.isBlank = k.isBlank := by rw [DeclaredKey.isBlank, h.fieldSet, DeclaredKey.isBlank]

theorem selections? : k'.selections? = k.selections? := by
  unfold DeclaredKey.selections?
  rw [h.isBlank]
  have same := h.outcome
  generalize k.outcome = outcome, k'.outcome = outcome' at same
  cases same <;> rfl

theorem faults : k'.faults = [] ↔ k.faults = [] := by
  unfold DeclaredKey.faults
  rw [h.isBlank]
  split
  · rfl
  · have same := h.outcome
    generalize k.outcome = outcome, k'.outcome = outcome' at same
    cases same with
    | ok => rfl
    | error faulty faulty' => exact iff_of_false faulty' faulty

theorem coordinates : k'.coordinates (types.rename ρ) = (k.coordinates types).map ρ := by
  unfold DeclaredKey.coordinates
  rw [h.selections?, h.typeName]
  cases k.selections? with
  | none => rfl
  | some selections => exact listCoordinates_rename types k.typeName selections

end DeclaredKey.Mirrors

/-- What two field sets have in common of which one is the other on the field of a renamed type. -/
structure DeclaredSelection.Mirrors (ρ : Renaming) (d d' : DeclaredSelection) : Prop where
  field : d'.field = d.field
  target : d'.target = ρ d.target
  outcome : SameOutcome d.outcome d'.outcome

namespace DeclaredSelection.Mirrors

variable {d d' : DeclaredSelection} (h : d.Mirrors ρ d')

include h

theorem selections? : d'.selections? = d.selections? := by
  have same := h.outcome
  unfold DeclaredSelection.selections?
  generalize d.outcome = outcome, d'.outcome = outcome' at same
  cases same <;> rfl

theorem faults : d'.faults = [] ↔ d.faults = [] := by
  have same := h.outcome
  unfold DeclaredSelection.faults
  generalize d.outcome = outcome, d'.outcome = outcome' at same
  cases same with
  | ok => rfl
  | error faulty faulty' => exact iff_of_false faulty' faulty

theorem coordinates : d'.coordinates (types.rename ρ) = (d.coordinates types).map ρ := by
  unfold DeclaredSelection.coordinates
  rw [h.selections?, h.target]
  cases d.selections? with
  | none => rfl
  | some selections => exact listCoordinates_rename types d.target selections

end DeclaredSelection.Mirrors

variable (typeName : String)

theorem keysOf_rename (sets : KeySets) :
    List.Forall₂ (DeclaredKey.Mirrors ρ) (keysOf types typeName sets)
      (keysOf (types.rename ρ) (ρ typeName) sets) := by
  unfold keysOf
  rw [List.forall₂_map_left_iff, List.forall₂_map_right_iff]
  exact List.forall₂_same.mpr fun e _ => ⟨rfl, rfl, rfl, sameOutcome_check types .key typeName e.1⟩

theorem providedOn_rename (sets : FieldSets) :
    List.Forall₂ (DeclaredSelection.Mirrors ρ) (providedOn types typeName sets)
      (providedOn (types.rename ρ) (ρ typeName) sets) := by
  unfold providedOn
  rw [List.forall₂_map_left_iff, List.forall₂_map_right_iff]
  refine List.forall₂_same.mpr fun e _ => ?_
  -- A field that is not registered is looked up on the empty name, which no renaming moves.
  have target : (((types.rename ρ).field? (ρ typeName) e.1).map fun f => f.type.namedType).getD "" =
      ρ (((types.field? typeName e.1).map fun f => f.type.namedType).getD "") := by
    rw [Registry.field?_rename]
    cases types.field? typeName e.1 with
    | none => exact (ρ.keeps "" (by decide)).symm
    | some f => exact f.type.namedType_rename
  refine ⟨rfl, target, ?_⟩
  dsimp only
  rw [target]
  exact sameOutcome_check types .provides _ e.2

theorem requiredOn_rename (sets : FieldSets) :
    List.Forall₂ (DeclaredSelection.Mirrors ρ) (requiredOn types typeName sets)
      (requiredOn (types.rename ρ) (ρ typeName) sets) := by
  unfold requiredOn
  rw [List.forall₂_map_left_iff, List.forall₂_map_right_iff]
  exact List.forall₂_same.mpr fun e _ => ⟨rfl, rfl, sameOutcome_check types .requires typeName e.2⟩

theorem selectionsOn_rename (sets : FieldSets) :
    List.Forall₂ (DeclaredSelection.Mirrors ρ) (selectionsOn types typeName sets)
      (selectionsOn (types.rename ρ) (ρ typeName) sets) :=
  List.rel_append (providedOn_rename types typeName sets) (requiredOn_rename types typeName sets)

variable {typeName} {typeName' : String}

theorem keyErrors_rename {keys keys' : List DeclaredKey} (same : List.Forall₂ (DeclaredKey.Mirrors ρ) keys keys') :
    keyErrors typeName' keys' = [] ↔ keyErrors typeName keys = [] := by
  have blank : keys'.filter DeclaredKey.isBlank = [] ↔ keys.filter DeclaredKey.isBlank = [] := by
    induction same with
    | nil => exact Iff.rfl
    | cons one _ ih =>
      rw [List.filter_cons, List.filter_cons, one.isBlank]
      split
      · exact iff_of_false (List.cons_ne_nil _ _) (List.cons_ne_nil _ _)
      · exact ih
  have faulty : (keys'.flatMap fun k => k.faults.map fun fault => (k.fieldSet, fault)) = [] ↔
      (keys.flatMap fun k => k.faults.map fun fault => (k.fieldSet, fault)) = [] :=
    flatMap_eq_nil_of_forall₂ same fun k k' h => by simp [h.faults]
  simp only [keyErrors, List.append_eq_nil_iff, reported_eq_nil_iff, faulty, List.map_eq_nil_iff, blank]

theorem selectionErrors_rename {directive : String} {declared declared' : List DeclaredSelection}
    (same : List.Forall₂ (DeclaredSelection.Mirrors ρ) declared declared') :
    selectionErrors directive typeName' declared' = [] ↔ selectionErrors directive typeName declared = [] := by
  unfold selectionErrors
  dsimp only
  rw [reported_eq_nil_iff, reported_eq_nil_iff]
  exact flatMap_eq_nil_of_forall₂ same fun d d' h => by simp [h.faults]

end FieldSet

end Federation
