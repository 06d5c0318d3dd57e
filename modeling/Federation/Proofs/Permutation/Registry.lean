import Federation.FieldSet.Declared
import Federation.Proofs.Batch.Order

/-!
# Registries in another order

Two registries that hold the same under every name are told apart by nothing that looks a type up: neither by field
sets, nor by the interfaces that a type implements.
-/

namespace Federation

open Schema

/-! ## Tables and sets -/

namespace Table

variable {κ β γ : Type} [DecidableEq κ] {t u : Table κ β}

/-- Tables that hold the same under every key differ in order only. -/
theorem perm_of_get? (same : u.get? = t.get?) : u.toList.Perm t.toList := by
  have entries (t : Table κ β) : t.toList.Nodup := List.Nodup.of_map Prod.fst t.nodup_keys
  refine (List.perm_ext_iff_of_nodup (entries u) (entries t)).mpr fun e => ?_
  obtain ⟨k, v⟩ := e
  rw [mem_toList, same, mem_toList]

theorem agree_of_get? (same : u.get? = t.get?) : t.Agree Eq u :=
  .of_perm (fun _ => rfl) (perm_of_get? same).symm

theorem contains_congr (same : u.get? = t.get?) : u.contains = t.contains := by
  funext k
  rw [Bool.eq_iff_iff, contains_iff, contains_iff, ← get?_isSome_iff, same, get?_isSome_iff]

theorem getD_congr (same : u.get? = t.get?) : u.getD = t.getD := by
  funext k v
  rw [getD, same, getD]

/-- Tables that are made of the same keys in another order agree where their values do. -/
theorem agree_ofList {α : Type} {R : β → β → Prop} {key : α → κ} {f g : α → β} {xs ys : List α} (perm : xs.Perm ys)
    (nodup : (xs.map key).Nodup) (related : ∀ x ∈ xs, R (f x) (g x)) :
    (ofList (xs.map fun x => (key x, f x))).Agree R (ofList (ys.map fun y => (key y, g y))) := by
  have listed : (ofList (xs.map fun x => (key x, f x))).toList = xs.map fun x => (key x, f x) :=
    toList_ofList (by simpa [Function.comp_def] using nodup)
  have listed' : (ofList (ys.map fun y => (key y, g y))).toList = ys.map fun y => (key y, g y) :=
    toList_ofList (by simpa [Function.comp_def] using (perm.map key).nodup_iff.mp nodup)
  refine ⟨?_, fun k v w found found' => ?_⟩
  · simpa [keys, listed, listed', Function.comp_def] using perm.map key
  · rw [← mem_toList, listed] at found
    rw [← mem_toList, listed'] at found'
    obtain ⟨x, member, made⟩ := List.mem_map.mp found
    obtain ⟨y, member', made'⟩ := List.mem_map.mp found'
    obtain ⟨rfl, rfl⟩ := Prod.mk.inj made
    obtain ⟨same, rfl⟩ := Prod.mk.inj made'
    obtain rfl := List.inj_on_of_nodup_map nodup (perm.mem_iff.mpr member') member same
    exact related _ member

/-- Tables that agree have a key together or not at all. -/
theorem Agree.cases {R : β → β → Prop} (agree : t.Agree R u) (k : κ) :
    (t.get? k = none ∧ u.get? k = none) ∨ ∃ v w, t.get? k = some v ∧ u.get? k = some w ∧ R v w := by
  have listed := agree.keys.mem_iff (a := k)
  cases found : t.get? k with
  | none =>
    rw [get?_eq_none_iff] at found
    exact Or.inl ⟨rfl, get?_eq_none_iff.mpr fun member => found (listed.mpr member)⟩
  | some v =>
    obtain ⟨w, found'⟩ := exists_get?_of_mem_keys (listed.mp (mem_keys_of_get? found))
    exact Or.inr ⟨v, w, rfl, found', agree.values k v w found found'⟩

end Table

theorem OrderedSet.SameMembers.contains {α : Type} [DecidableEq α] {s t : OrderedSet α} (same : s.SameMembers t) :
    s.contains = t.contains := by
  funext a
  rw [Bool.eq_iff_iff, contains_iff, contains_iff]
  exact sameMembers_iff.mp same a

section Registry

variable {types types' : Registry} (same : types'.get? = types.get?)

namespace Registry

include same

theorem kind?_congr : types'.kind? = types.kind? := by
  funext name
  rw [kind?, same, kind?]

theorem composite?_congr : types'.composite? = types.composite? := by
  funext name
  rw [composite?, same, composite?]

theorem isEntity_congr : types'.isEntity = types.isEntity := by
  funext name
  rw [isEntity, same, isEntity]

theorem field?_congr : types'.field? = types.field? := by
  funext parent field
  rw [field?, composite?_congr same, field?]

end Registry

/-! ## Field sets -/

namespace FieldSet

section

include same

theorem below_congr : below types' = below types := by
  funext use typeName
  rw [below, Registry.kind?_congr same, below]

theorem onComposite_congr : onComposite types' = onComposite types := by
  funext parent faults
  rw [onComposite, Registry.composite?_congr same, onComposite]

end

-- Each selection is checked on the type of its field, which is looked up in both registries.
mutual

theorem selectionFaults_congr (same : types'.get? = types.get?) (use : FieldSetUse) (parent : String)
    (c : Composite) : ∀ s : Selection,
    selectionFaults types' use parent c s = selectionFaults types use parent c s
  | .fragment => rfl
  | .field name hasArguments hasDirectives selections => by
    have deeper (typeName : String) :
        onComposite types' typeName (fun c => listFaults types' use typeName c selections) =
          onComposite types typeName (fun c => listFaults types use typeName c selections) := by
      rw [onComposite_congr same]
      exact congrArg _ (funext fun c => listFaults_congr same use typeName c selections)
    simp only [selectionFaults, below_congr same, deeper]

theorem listFaults_congr (same : types'.get? = types.get?) (use : FieldSetUse) (parent : String)
    (c : Composite) : ∀ selections : List Selection,
    listFaults types' use parent c selections = listFaults types use parent c selections
  | [] => rfl
  | s :: rest => by
    rw [listFaults, selectionFaults_congr same use parent c s, listFaults_congr same use parent c rest, listFaults]

end

theorem check_congr (same : types'.get? = types.get?) : check types' = check types := by
  have faults : faults types' = faults types := by
    funext use parent selections
    rw [FieldSet.faults, onComposite_congr same, FieldSet.faults]
    exact congrArg _ (funext fun c => listFaults_congr same use parent c selections)
  funext use parent fieldSet
  rw [check, faults, check]

mutual

theorem selectedCoordinates_congr (same : types'.get? = types.get?) (parent : String) : ∀ s : Selection,
    selectedCoordinates types' parent s = selectedCoordinates types parent s
  | .fragment => rfl
  | .field name _ _ selections => by
    have deeper (typeName : String) := listCoordinates_congr same typeName selections
    simp only [selectedCoordinates, Registry.field?_congr same, deeper]

theorem listCoordinates_congr (same : types'.get? = types.get?) (parent : String) : ∀ selections : List Selection,
    listCoordinates types' parent selections = listCoordinates types parent selections
  | [] => rfl
  | s :: rest => by
    rw [listCoordinates, selectedCoordinates_congr same parent s, listCoordinates_congr same parent rest,
      listCoordinates]

end

mutual

theorem conditions_congr (same : types'.get? = types.get?) (path : List Step) (parent : String) : ∀ s : Selection,
    conditions types' path parent s = conditions types path parent s
  | .fragment => rfl
  | .field name _ _ selections => by
    have deeper (path : List Step) (typeName : String) := listConditions_congr same path typeName selections
    simp only [conditions, Registry.field?_congr same, deeper]

theorem listConditions_congr (same : types'.get? = types.get?) (path : List Step) (parent : String) :
    ∀ selections : List Selection,
    listConditions types' path parent selections = listConditions types path parent selections
  | [] => rfl
  | s :: rest => by
    rw [listConditions, conditions_congr same path parent s, listConditions_congr same path parent rest,
      listConditions]

end

section

include same

theorem keysOf_congr : keysOf types' = keysOf types := by
  funext typeName sets
  rw [keysOf, check_congr same, keysOf]

theorem providedOn_congr : providedOn types' = providedOn types := by
  funext typeName sets
  simp only [providedOn, Registry.field?_congr same, check_congr same]

theorem requiredOn_congr : requiredOn types' = requiredOn types := by
  funext typeName sets
  rw [requiredOn, check_congr same, requiredOn]

theorem selectionsOn_congr : selectionsOn types' = selectionsOn types := by
  funext typeName sets
  rw [selectionsOn, providedOn_congr same, requiredOn_congr same, selectionsOn]

theorem DeclaredKey.coordinates_congr (k : DeclaredKey) : k.coordinates types' = k.coordinates types := by
  simp only [coordinates, listCoordinates_congr same]

theorem DeclaredSelection.coordinates_congr (d : DeclaredSelection) : d.coordinates types' = d.coordinates types := by
  simp only [coordinates, listCoordinates_congr same]

theorem DeclaredSelection.conditions_congr (d : DeclaredSelection) : d.conditions types' = d.conditions types := by
  simp only [conditions, listConditions_congr same]

end

end FieldSet

/-! ## Implementations -/

namespace Implementation

include same

theorem target_congr : target types' = target types := by
  funext typeName interfaceName
  rw [target, same, target]

theorem undefinedNames_congr : undefinedNames types' = undefinedNames types := by
  funext typeName c
  rw [undefinedNames, target_congr same, undefinedNames]

theorem nonInterfaces_congr : nonInterfaces types' = nonInterfaces types := by
  funext typeName c
  rw [nonInterfaces, target_congr same, nonInterfaces]

theorem implementsItself_congr : implementsItself types' = implementsItself types := by
  funext typeName c
  rw [implementsItself, target_congr same, implementsItself]

theorem interfaces_congr : interfaces types' = interfaces types := by
  funext typeName c
  rw [interfaces, target_congr same, interfaces]

theorem requiredFields_congr : requiredFields types' = requiredFields types := by
  funext typeName c
  rw [requiredFields, interfaces_congr same, requiredFields]

theorem mismatches_congr {concrete concrete' : ConcreteTypes} (members : concrete'.isConcrete = concrete.isConcrete) :
    mismatches types' concrete' = mismatches types concrete := by
  have field : compareField concrete' = compareField concrete := by
    funext isParentInaccessible declared given
    rw [compareField, members, compareField]
  have compared : compare concrete' = compare concrete := by
    funext isInaccessible interface given
    rw [compare, field, compare]
  funext typeName isInaccessible c
  rw [mismatches, interfaces_congr same, compared, mismatches]

end Implementation

end Registry

end Federation
