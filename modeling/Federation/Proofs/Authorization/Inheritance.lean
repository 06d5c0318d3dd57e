import Federation.Authorization.Inheritance
import Federation.Proofs.Authorization.Credential

/-!
# What inheritance adds to a requirement

Every pass over a ledger joins a list of requirements to each field, in an order that can be read off
what the pass goes through. Where no host is noted as over the limit there was room at each step.
-/

namespace Federation.Authorization

open Schema
open Requirement (joinAll FitsAll joinAll_append fitsAll_append)

def Records.fieldAt (records : Records) (typeName field : String) : Requirement :=
  (records.of typeName).field field

def Records.typeAt (records : Records) (typeName : String) : Requirement :=
  (records.of typeName).requirement

/-- The requirements in a list are joined to what is seen of the records, and if no host is over the
limit afterwards, none was before and there was room for each of them. -/
structure Receives (limit : Nat) (view : Records → Requirement) (given : List Requirement)
    (before after : Records × NameSet) : Prop where
  joined : view after.1 = joinAll limit (view before.1) given
  room : after.2.toList = [] → before.2.toList = [] ∧ FitsAll limit (view before.1) given

namespace Receives

variable {limit : Nat} {view : Records → Requirement}

/-- Where what is seen does not change, nothing is received. -/
theorem nothing {before after : Records × NameSet} (same : view after.1 = view before.1)
    (kept : after.2.toList = [] → before.2.toList = []) : Receives limit view [] before after :=
  ⟨same, fun h => ⟨kept h, trivial⟩⟩

theorem trans {rs ss : List Requirement} {a b c : Records × NameSet} (first : Receives limit view rs a b)
    (second : Receives limit view ss b c) : Receives limit view (rs ++ ss) a c where
  joined := by rw [joinAll_append, ← first.joined, second.joined]
  room h := by
    -- A host that is noted stays noted, so room at the end is room all the way.
    have later := second.room h
    have earlier := first.room later.1
    rw [fitsAll_append, ← first.joined]
    exact ⟨earlier.1, earlier.2, later.2⟩

/-- A requirement that asks nothing makes no difference. -/
theorem padded {before after : Records × NameSet} (h : Receives limit view [] before after) :
    Receives limit view [.none] before after where
  joined := by
    rw [h.joined]
    exact (Requirement.conjoin_none_right limit (view before.1)).symm
  room within := ⟨(h.room within).1, Requirement.fits_none_right limit (view before.1), trivial⟩

/-- A pass over a list gives what its steps give, one after the other. -/
theorem foldl {σ α : Type} (books : σ → Records × NameSet) (step : σ → α → σ)
    (given : α → List Requirement) (Inv : σ → Prop) (xs : List α)
    (one : ∀ s, ∀ x ∈ xs, Inv s →
      Inv (step s x) ∧ Receives limit view (given x) (books s) (books (step s x)))
    (s : σ) (start : Inv s) :
    Inv (xs.foldl step s) ∧ Receives limit view (xs.flatMap given) (books s) (books (xs.foldl step s)) := by
  induction xs generalizing s with
  | nil => exact ⟨start, nothing rfl id⟩
  | cons x xs ih =>
    have head := one s x List.mem_cons_self start
    have tail := ih (fun s x hx => one s x (List.mem_cons_of_mem _ hx)) (step s x) head.1
    exact ⟨tail.1, head.2.trans tail.2⟩

end Receives

theorem flatMap_ite_of_nodup {α β : Type} [DecidableEq α] (xs : List α) (nodup : xs.Nodup) (a : α)
    (bs : List β) : (xs.flatMap fun x => if x = a then bs else []) = if a ∈ xs then bs else [] := by
  induction xs with
  | nil => rfl
  | cons x xs ih =>
    obtain ⟨fresh, nodup⟩ := List.nodup_cons.mp nodup
    rw [List.flatMap_cons, ih nodup]
    by_cases same : x = a
    · subst same; simp [fresh]
    · have other : ¬ a = x := fun h => same h.symm
      simp [same, other]

namespace Ledger

/-- What a pass works on: the records, and the hosts that are over the limit. -/
def books (l : Ledger) : Records × NameSet := (l.records, l.overLimit)

theorem fieldAt_conjoinField (limit : Nat) (path owner field : String) (r : Requirement) (l : Ledger)
    (typeName name : String) :
    (l.conjoinField limit path owner field r).records.fieldAt typeName name =
      if typeName = owner ∧ name = field then (l.records.fieldAt owner field).conjoin limit r
      else l.records.fieldAt typeName name := by
  simp only [conjoinField, Records.fieldAt, Records.of_update]
  by_cases same : typeName = owner
  · subst same
    rw [if_pos rfl, Record.field_updateField]
    simp
  · simp [same]

theorem typeAt_conjoinField (limit : Nat) (path owner field : String) (r : Requirement) (l : Ledger)
    (typeName : String) :
    (l.conjoinField limit path owner field r).records.typeAt typeName = l.records.typeAt typeName := by
  simp only [conjoinField, Records.typeAt, Records.of_update]
  split
  · next same => subst same; rfl
  · rfl

theorem get?_conjoinField_of_ne (limit : Nat) (path owner field : String) (r : Requirement) (l : Ledger)
    (typeName : String) (other : typeName ≠ owner) :
    (l.conjoinField limit path owner field r).records.get? typeName = l.records.get? typeName :=
  (Table.get?_upsert l.records owner typeName _).trans (if_neg other)

/-- What a step may not change for later steps to read the same. -/
structure SameTypes (a b : Ledger) : Prop where
  typeAt : ∀ typeName, b.records.typeAt typeName = a.records.typeAt typeName
  leafTypes : b.leafTypes = a.leafTypes
  heirs : b.heirs = a.heirs

namespace SameTypes

theorem refl (a : Ledger) : SameTypes a a := ⟨fun _ => rfl, rfl, rfl⟩

theorem trans {a b c : Ledger} (first : SameTypes a b) (second : SameTypes b c) : SameTypes a c :=
  ⟨fun typeName => (second.typeAt typeName).trans (first.typeAt typeName),
    second.leafTypes.trans first.leafTypes, second.heirs.trans first.heirs⟩

theorem foldl {α : Type} (step : Ledger → α → Ledger) (one : ∀ l x, SameTypes l (step l x)) (xs : List α)
    (l : Ledger) : SameTypes l (xs.foldl step l) :=
  List.foldlRecOn xs step (refl l) fun l' before x _ => before.trans (one l' x)

end SameTypes

theorem sameTypes_conjoinField (limit : Nat) (path owner field : String) (r : Requirement) (l : Ledger) :
    SameTypes l (l.conjoinField limit path owner field r) :=
  ⟨fun typeName => typeAt_conjoinField limit path owner field r l typeName, rfl, rfl⟩

/-- A requirement that is added to one field reaches that field and no other. -/
theorem receives_conjoinField (limit : Nat) (path owner field : String) (r : Requirement) (l : Ledger)
    (typeName name : String) :
    Receives limit (·.fieldAt typeName name) (if typeName = owner ∧ name = field then [r] else [])
      l.books (l.conjoinField limit path owner field r).books where
  joined := by
    change (l.conjoinField limit path owner field r).records.fieldAt typeName name = _
    rw [fieldAt_conjoinField]
    split
    · next same => obtain ⟨rfl, rfl⟩ := same; rfl
    · rfl
  room h := by
    have noted : (if (l.records.fieldAt owner field).fits limit r then l.overLimit
        else l.overLimit.insert path).toList = [] := h
    split at noted
    · next fits =>
      refine ⟨noted, ?_⟩
      split
      · next same => obtain ⟨rfl, rfl⟩ := same; exact ⟨fits, trivial⟩
      · trivial
    -- Without room the path would be noted.
    · exact absurd noted (OrderedSet.toList_insert_ne_nil _ _)

/-- An update of a record that keeps its fields is not seen at any field. -/
theorem fieldAt_update_of_fields (records : Records) (owner : String) (f : Record → Record)
    (same : (f (records.of owner)).fields = (records.of owner).fields) (typeName name : String) :
    (records.update owner f).fieldAt typeName name = records.fieldAt typeName name := by
  simp only [Records.fieldAt, Records.of_update]
  split
  · next h => subst h; simp only [Record.field, same]
  · rfl

/-- Requirements that are added one after the other reach the fields that they are added to. -/
theorem receives_conjoinFields {α : Type} (limit : Nat) (path owner field : α → String)
    (r : α → Requirement) (xs : List α) (l : Ledger) (typeName name : String) :
    Receives limit (·.fieldAt typeName name)
      (xs.flatMap fun x => if typeName = owner x ∧ name = field x then [r x] else []) l.books
      (xs.foldl (fun l x => l.conjoinField limit (path x) (owner x) (field x) (r x)) l).books :=
  (Receives.foldl books _ _ (fun _ => True) xs
    (fun l x _ _ => ⟨trivial, receives_conjoinField limit (path x) (owner x) (field x) (r x) l
      typeName name⟩) l trivial).2

/-! ## From types -/

/-- What a registered type with a requirement of its own gives to a field of a canonical type. -/
def fromType (limit : Nat) (roots : RootTypes) (typeName name : String) (e : String × TypeEntry) :
    List Requirement :=
  match e.2.composite?, typeLevel limit e.2.directives with
  | some c, .requirement r =>
    if typeName = roots.canonicalName e.1 ∧ name ∈ c.fields.keys then [r] else []
  | _, _ => []

theorem receives_coverFields (limit : Nat) (owner canonicalName : String) (fields : List String)
    (nodup : fields.Nodup) (r : Requirement) (l : Ledger) (typeName name : String) :
    Receives limit (·.fieldAt typeName name)
      (if typeName = canonicalName ∧ name ∈ fields then [r] else []) l.books
      (l.coverFields limit owner canonicalName fields r).books := by
  have written : Receives limit (·.fieldAt typeName name) [] l.books
      (l.records.update canonicalName fun record =>
        { record with coversFields := true, requirement := r }, l.overLimit) :=
    .nothing (fieldAt_update_of_fields l.records canonicalName _ rfl typeName name) id
  have given : (fields.flatMap fun field =>
      if typeName = canonicalName ∧ name = field then [r] else []) =
      if typeName = canonicalName ∧ name ∈ fields then [r] else [] := by
    by_cases same : typeName = canonicalName
    · simpa [same, eq_comm] using flatMap_ite_of_nodup fields nodup name [r]
    · simp [same]
  -- After that the fields of the type are gone through like any others.
  have passed := receives_conjoinFields limit (fun field => s!"{owner}.{field}")
    (fun _ => canonicalName) (fun field => field) (fun _ => r) fields
    { l with records := l.records.update canonicalName fun record =>
        { record with coversFields := true, requirement := r } } typeName name
  rw [← given]
  exact written.trans passed

theorem receives_inheritFromType (limit : Nat) (roots : RootTypes) (l : Ledger) (e : String × TypeEntry)
    (typeName name : String) :
    Receives limit (·.fieldAt typeName name) (fromType limit roots typeName name e) l.books
      (l.inheritFromType limit roots e.1 e.2).books := by
  unfold inheritFromType fromType
  cases e.2.composite? with
  | none => exact .nothing rfl id
  | some c =>
    cases typeLevel limit e.2.directives with
    | nothing => exact .nothing rfl id
    | overLimit =>
      exact ⟨rfl, fun noted => absurd noted (OrderedSet.toList_insert_ne_nil l.overLimit e.1)⟩
    | requirement r =>
      exact receives_coverFields limit e.1 _ c.fields.keys c.fields.nodup_keys r l typeName name

/-- The requirement of a type is written before it is passed on, and nothing else of that kind is. -/
theorem sameTypes_coverFields (limit : Nat) (owner canonicalName : String) (fields : List String)
    (r : Requirement) (l : Ledger) :
    SameTypes { l with records := l.records.update canonicalName fun record =>
        { record with coversFields := true, requirement := r } }
      (l.coverFields limit owner canonicalName fields r) :=
  .foldl _ (fun l field => sameTypes_conjoinField limit s!"{owner}.{field}" canonicalName field r l)
    fields _

theorem leafTypes_inheritFromType (limit : Nat) (roots : RootTypes) (l : Ledger) (e : String × TypeEntry) :
    (l.inheritFromType limit roots e.1 e.2).leafTypes = l.leafTypes ∧
      (l.inheritFromType limit roots e.1 e.2).heirs = l.heirs := by
  unfold inheritFromType
  split
  · exact ⟨rfl, rfl⟩
  · next c _ =>
    split
    · exact ⟨rfl, rfl⟩
    · exact ⟨rfl, rfl⟩
    · next r _ =>
      have same := sameTypes_coverFields limit e.1 (roots.canonicalName e.1) c.fields.keys r l
      exact ⟨same.leafTypes, same.heirs⟩

theorem mem_fields_coverFields (limit : Nat) (owner canonicalName : String) (fields : List String)
    (r : Requirement) (l : Ledger) (typeName name : String) :
    name ∈ ((l.coverFields limit owner canonicalName fields r).records.of typeName).fields.keys ↔
      name ∈ (l.records.of typeName).fields.keys ∨ (typeName = canonicalName ∧ name ∈ fields) := by
  have passed : ∀ l : Ledger, name ∈ ((fields.foldl (fun l field =>
      l.conjoinField limit s!"{owner}.{field}" canonicalName field r) l).records.of typeName).fields.keys ↔
      name ∈ (l.records.of typeName).fields.keys ∨ (typeName = canonicalName ∧ name ∈ fields) := by
    induction fields with
    | nil => simp
    | cons field fields ih =>
      intro l
      rw [List.foldl_cons, ih]
      by_cases same : typeName = canonicalName
      · subst same
        simp [conjoinField, Records.of_update, or_assoc]
      · simp [conjoinField, Records.of_update, same]
  -- The type's own requirement is written besides, which adds no field.
  unfold coverFields
  rw [passed]
  simp only [Records.of_update]
  split
  · next same => subst same; rfl
  · rfl

/-- What is required of a type after one registered type was looked at. -/
theorem typeAt_inheritFromType (limit : Nat) (roots : RootTypes) (l : Ledger) (e : String × TypeEntry)
    (typeName : String) :
    (l.inheritFromType limit roots e.1 e.2).records.typeAt typeName =
      match e.2.composite?, typeLevel limit e.2.directives with
      | some _, .requirement r =>
        if typeName = roots.canonicalName e.1 then r else l.records.typeAt typeName
      | _, _ => l.records.typeAt typeName := by
  unfold inheritFromType
  cases e.2.composite? with
  | none => rfl
  | some c =>
    cases typeLevel limit e.2.directives with
    | nothing => rfl
    | overLimit => rfl
    | requirement r =>
      change (l.coverFields limit e.1 (roots.canonicalName e.1) c.fields.keys r).records.typeAt _ = _
      rw [(sameTypes_coverFields limit _ _ _ r l).typeAt]
      simp only [Records.typeAt, Records.of_update]
      split <;> rfl

/-! ## From interfaces -/

/-- What records hold for a field of an interface, for a field of the same name of a concrete type. -/
def fromInterface (concrete : ConcreteTypes) (records : Records) (typeName name interfaceName : String) :
    List Requirement :=
  if typeName ∈ (concrete.of interfaceName).toList then
    ((records.of interfaceName).fields.get? name).toList
  else []

/-- Of the fields of one type the one that is asked for counts, if the type does. -/
theorem flatMap_fields (fields : Table String Requirement) (owner typeName name : String) :
    (fields.toList.flatMap fun e => if typeName = owner ∧ name = e.1 then [e.2] else []) =
      if owner = typeName then (fields.get? name).toList else [] := by
  by_cases same : owner = typeName
  · subst same
    rw [fields.flatMap_toList name]
    · cases fields.get? name <;> simp
    · intro e _ other
      simp [Ne.symm other]
  · have other : ¬ typeName = owner := fun h => same h.symm
    simp [same, other]

theorem receives_inheritFields (limit : Nat) (fields : Table String Requirement) (l : Ledger)
    (concreteName typeName name : String) :
    Receives limit (·.fieldAt typeName name)
      (if concreteName = typeName then (fields.get? name).toList else []) l.books
      (inheritFields limit fields.toList l concreteName).books := by
  have written : Receives limit (·.fieldAt typeName name) [] l.books
      ({ l with records := l.records.update concreteName id } : Ledger).books :=
    .nothing (fieldAt_update_of_fields l.records concreteName id rfl typeName name) id
  have passed := receives_conjoinFields limit (fun e => s!"{concreteName}.{e.1}")
    (fun _ => concreteName) Prod.fst Prod.snd fields.toList
    { l with records := l.records.update concreteName id } typeName name
  rw [← flatMap_fields]
  exact written.trans passed

theorem get?_inheritFields_of_ne (limit : Nat) (fields : List (String × Requirement)) (l : Ledger)
    (concreteName typeName : String) (other : typeName ≠ concreteName) :
    (inheritFields limit fields l concreteName).records.get? typeName = l.records.get? typeName := by
  have passed : ∀ l : Ledger, (fields.foldl (fun l e =>
      l.conjoinField limit s!"{concreteName}.{e.1}" concreteName e.1 e.2) l).records.get? typeName =
      l.records.get? typeName := by
    induction fields with
    | nil => intro l; rfl
    | cons e fields ih =>
      intro l
      rw [List.foldl_cons, ih, get?_conjoinField_of_ne _ _ _ _ _ _ _ other]
  exact (passed _).trans ((Table.get?_upsert _ _ _ _).trans (if_neg other))

/-- While the requirements of one interface are passed on, the records of types that are not concrete
for it stay. -/
theorem receives_inheritFromInterface (limit : Nat) (concrete : ConcreteTypes) (l : Ledger)
    (interfaceName typeName name : String) :
    Receives limit (·.fieldAt typeName name)
      (fromInterface concrete l.records typeName name interfaceName) l.books
      (l.inheritFromInterface limit concrete interfaceName).books := by
  unfold inheritFromInterface fromInterface
  cases found : l.records.get? interfaceName with
  | none =>
    -- An interface without a record has nothing to pass on.
    have empty : l.records.of interfaceName = .empty := by simp [Records.of, Table.getD, found]
    have absent : Record.empty.fields.get? name = none := rfl
    rw [empty, absent]
    split <;> exact .nothing rfl id
  | some record =>
    have same : l.records.of interfaceName = record := by simp [Records.of, Table.getD, found]
    rw [same]
    have passed := Receives.foldl books _ _ (fun _ => True) (concrete.of interfaceName).toList
      (fun l concreteName _ _ => ⟨trivial, receives_inheritFields limit record.fields l concreteName
        typeName name⟩) l trivial
    rw [flatMap_ite_of_nodup _ (concrete.of interfaceName).nodup] at passed
    exact passed.2

theorem get?_inheritFromInterface_of_not_mem (limit : Nat) (concrete : ConcreteTypes) (l : Ledger)
    (interfaceName typeName : String) (other : typeName ∉ (concrete.of interfaceName).toList) :
    (l.inheritFromInterface limit concrete interfaceName).records.get? typeName = l.records.get? typeName := by
  unfold inheritFromInterface
  cases l.records.get? interfaceName with
  | none => rfl
  | some record =>
    change ((concrete.of interfaceName).toList.foldl (inheritFields limit record.fields.toList)
      l).records.get? typeName = _
    generalize (concrete.of interfaceName).toList = names at other
    induction names generalizing l with
    | nil => rfl
    | cons first rest ih =>
      simp only [List.mem_cons, not_or] at other
      rw [List.foldl_cons, ih _ other.2, get?_inheritFields_of_ne _ _ _ _ _ other.1]

theorem of_inheritFromInterface_of_not_mem (limit : Nat) (concrete : ConcreteTypes) (l : Ledger)
    (interfaceName typeName : String) (other : typeName ∉ (concrete.of interfaceName).toList) :
    (l.inheritFromInterface limit concrete interfaceName).records.of typeName =
      l.records.of typeName := by
  unfold Records.of Table.getD
  rw [get?_inheritFromInterface_of_not_mem limit concrete l interfaceName typeName other]

theorem sameTypes_inheritFields (limit : Nat) (fields : List (String × Requirement)) (l : Ledger)
    (concreteName : String) : SameTypes l (inheritFields limit fields l concreteName) := by
  have written : SameTypes l { l with records := l.records.update concreteName id } := by
    refine ⟨fun typeName => ?_, rfl, rfl⟩
    simp only [Records.typeAt, Records.of_update]
    split
    · next same => subst same; rfl
    · rfl
  exact written.trans (.foldl _ (fun l e => sameTypes_conjoinField limit _ _ _ _ l) fields _)

theorem sameTypes_inheritFromInterface (limit : Nat) (concrete : ConcreteTypes) (l : Ledger)
    (interfaceName : String) : SameTypes l (l.inheritFromInterface limit concrete interfaceName) := by
  unfold inheritFromInterface
  split
  · exact .refl l
  · exact .foldl _ (fun l name => sameTypes_inheritFields limit _ l name) _ l

/-! ## From leaf types -/

/-- What an heir takes over, if it is the field asked for and its type is a leaf type with a
requirement. -/
def fromLeaf (leafTypes : NameSet) (records : Records) (typeName name : String) (heir : Heir) :
    List Requirement :=
  if (typeName = heir.canonicalParent ∧ name = heir.field) ∧ heir.namedType ∈ leafTypes.toList then
    [records.typeAt heir.namedType]
  else []

theorem receives_inheritFromLeaf (limit : Nat) (l : Ledger) (heir : Heir) (typeName name : String) :
    Receives limit (·.fieldAt typeName name) (fromLeaf l.leafTypes l.records typeName name heir)
      l.books (l.inheritFromLeaf limit heir).books := by
  unfold inheritFromLeaf fromLeaf
  simp only [OrderedSet.contains_iff]
  by_cases leaf : heir.namedType ∈ l.leafTypes.toList
  · simp only [leaf, and_true, if_true]
    cases found : l.records.get? heir.namedType with
    | none =>
      -- A leaf type without a record asks nothing, so that nothing has to be passed on.
      have asksNothing : l.records.typeAt heir.namedType = .none := by
        simp [Records.typeAt, Records.of, Table.getD, found, Record.empty]
      rw [asksNothing]
      split
      · exact ⟨(Requirement.conjoin_none_right limit _).symm,
          fun h => ⟨h, Requirement.fits_none_right limit _, trivial⟩⟩
      · exact .nothing rfl id
    | some record =>
      have same : l.records.typeAt heir.namedType = record.requirement := by
        simp [Records.typeAt, Records.of, Table.getD, found]
      rw [same]
      exact receives_conjoinField limit _ _ _ _ l typeName name
  · simp only [leaf, and_false, if_false]
    exact .nothing rfl id

theorem sameTypes_inheritFromLeaf (limit : Nat) (l : Ledger) (heir : Heir) :
    SameTypes l (l.inheritFromLeaf limit heir) := by
  unfold inheritFromLeaf
  split
  · split
    · exact .refl l
    · exact sameTypes_conjoinField _ _ _ _ _ l
  · exact .refl l

/-! ## All three passes -/

/-- The ledger after the requirements of types were passed on, before those of interfaces are. -/
def afterTypes (limit : Nat) (roots : RootTypes) (types : Registry) (l : Ledger) : Ledger :=
  types.toList.foldl (fun l e => l.inheritFromType limit roots e.1 e.2) l

theorem receives_afterTypes (limit : Nat) (roots : RootTypes) (types : Registry) (l : Ledger)
    (typeName name : String) :
    Receives limit (·.fieldAt typeName name) (types.toList.flatMap (fromType limit roots typeName name))
      l.books (l.afterTypes limit roots types).books :=
  (Receives.foldl books _ _ (fun _ => True) types.toList
    (fun l e _ _ => ⟨trivial, receives_inheritFromType limit roots l e typeName name⟩) l trivial).2

theorem leafTypes_afterTypes (limit : Nat) (roots : RootTypes) (types : Registry) (l : Ledger) :
    (l.afterTypes limit roots types).leafTypes = l.leafTypes ∧
      (l.afterTypes limit roots types).heirs = l.heirs := by
  unfold afterTypes
  induction types.toList generalizing l with
  | nil => exact ⟨rfl, rfl⟩
  | cons e rest ih =>
    have step := leafTypes_inheritFromType limit roots l e
    have later := ih (l.inheritFromType limit roots e.1 e.2)
    exact ⟨later.1.trans step.1, later.2.trans step.2⟩

/-- A record has the fields that it had and those of the types that pass their requirements on. -/
theorem mem_fields_afterTypes (limit : Nat) (roots : RootTypes) (types : Registry) (l : Ledger)
    (typeName name : String) :
    name ∈ ((l.afterTypes limit roots types).records.of typeName).fields.keys ↔
      name ∈ (l.records.of typeName).fields.keys ∨
        ∃ e ∈ types.toList, fromType limit roots typeName name e ≠ [] := by
  unfold afterTypes
  induction types.toList generalizing l with
  | nil => simp
  | cons e rest ih =>
    have one : name ∈ ((l.inheritFromType limit roots e.1 e.2).records.of typeName).fields.keys ↔
        name ∈ (l.records.of typeName).fields.keys ∨ fromType limit roots typeName name e ≠ [] := by
      unfold inheritFromType fromType
      cases e.2.composite? with
      | none => simp
      | some c =>
        cases typeLevel limit e.2.directives with
        | nothing => simp
        | overLimit => simp
        | requirement r =>
          dsimp only
          rw [mem_fields_coverFields]
          simp
    rw [List.foldl_cons, ih, one, or_assoc]
    simp

/-- Where no host is over the limit, no object or interface was. -/
theorem typeLevel_of_afterTypes (limit : Nat) (roots : RootTypes) (types : Registry) (l : Ledger)
    (within : (l.afterTypes limit roots types).overLimit.toList = []) :
    ∀ e ∈ types.toList, e.2.composite?.isSome = true →
      (typeLevel limit e.2.directives matches .overLimit) = false := by
  unfold afterTypes at within
  generalize types.toList = es at within ⊢
  induction es generalizing l with
  | nil => nofun
  | cons e rest ih =>
    rw [List.foldl_cons] at within
    intro e' member composite
    rcases List.mem_cons.mp member with rfl | member
    · have later := (Receives.foldl books _ _ (fun _ => True) rest
        (fun l e _ _ => ⟨trivial, receives_inheritFromType limit roots l e "" ""⟩)
        (l.inheritFromType limit roots e'.1 e'.2) trivial).2
      have here := (later.room within).1
      obtain ⟨c, found⟩ := Option.isSome_iff_exists.mp composite
      unfold inheritFromType at here
      rw [found] at here
      cases level : typeLevel limit e'.2.directives with
      | nothing => rfl
      | requirement r => rfl
      -- It would have been noted at once.
      | overLimit =>
        rw [level] at here
        exact absurd here (OrderedSet.toList_insert_ne_nil l.overLimit e'.1)
    · exact ih (l.inheritFromType limit roots e.1 e.2) within e' member composite

/-- Where all registered types of a canonical name require the same, that is what is recorded for the
type, if one of them is registered or it was recorded before. -/
theorem typeAt_foldl_inheritFromType (limit : Nat) (roots : RootTypes) (typeName : String)
    (r : Requirement) (es : List (String × TypeEntry))
    (same : ∀ e ∈ es, ∀ c r', e.2.composite? = some c →
      typeLevel limit e.2.directives = .requirement r' → typeName = roots.canonicalName e.1 → r' = r)
    (l : Ledger)
    (given : l.records.typeAt typeName = r ∨ ∃ e ∈ es, e.2.composite?.isSome = true ∧
      typeLevel limit e.2.directives = .requirement r ∧ typeName = roots.canonicalName e.1) :
    (es.foldl (fun l e => l.inheritFromType limit roots e.1 e.2) l).records.typeAt typeName = r := by
  -- Either the requirement is recorded already, or a type that is still to come brings it.
  induction es generalizing l with
  | nil => simpa using given
  | cons e es ih =>
    rw [List.foldl_cons]
    apply ih fun e' he' => same e' (List.mem_cons_of_mem e he')
    rw [typeAt_inheritFromType]
    have first := same e List.mem_cons_self
    rcases given with before | ⟨e', member, composite, level, named⟩
    · left
      split
      · next c r' hc hr =>
        split
        · next named => exact first c r' hc hr named
        · exact before
      · exact before
    · rcases List.mem_cons.mp member with rfl | later
      · left
        obtain ⟨c, hc⟩ := Option.isSome_iff_exists.mp composite
        simp [hc, level, ← named]
      -- What is recorded meanwhile for this name does not matter, since it is written over.
      · exact Or.inr ⟨e', later, composite, level, named⟩

/-- The ledger after the requirements of interfaces were passed on. -/
def afterInterfaces (limit : Nat) (types : Registry) (concrete : ConcreteTypes) (l : Ledger) : Ledger :=
  (coveringInterfaces limit types).foldl (inheritFromInterface limit concrete) l

theorem sameTypes_afterInterfaces (limit : Nat) (types : Registry) (concrete : ConcreteTypes)
    (l : Ledger) : SameTypes l (l.afterInterfaces limit types concrete) :=
  .foldl _ (fun l name => sameTypes_inheritFromInterface limit concrete l name) _ l

/-- Interfaces pass on what they have before the pass: none of them is concrete for another one. -/
theorem receives_afterInterfaces (limit : Nat) (types : Registry) (concrete : ConcreteTypes) (l : Ledger)
    (abstract : ∀ i ∈ coveringInterfaces limit types, ∀ j ∈ coveringInterfaces limit types,
      j ∉ (concrete.of i).toList) (typeName name : String) :
    Receives limit (·.fieldAt typeName name)
      ((coveringInterfaces limit types).flatMap (fromInterface concrete l.records typeName name))
      l.books (l.afterInterfaces limit types concrete).books := by
  -- Invariant: the records of the interfaces that are gone through are those from before the pass.
  have steps := Receives.foldl books (inheritFromInterface limit concrete)
    (fromInterface concrete l.records typeName name)
    (fun l' => ∀ j ∈ coveringInterfaces limit types, l'.records.of j = l.records.of j)
    (coveringInterfaces limit types)
    (fun l' i hi kept => by
      constructor
      · intro j hj
        rw [of_inheritFromInterface_of_not_mem limit concrete l' i j (abstract i hi j hj), kept j hj]
      · have one := receives_inheritFromInterface limit concrete l' i typeName name
        unfold fromInterface at one ⊢
        rwa [kept i hi] at one)
    l (fun _ _ => rfl)
  exact steps.2

theorem receives_heirs (limit : Nat) (heirs : List Heir) (l : Ledger) (typeName name : String) :
    Receives limit (·.fieldAt typeName name)
      (heirs.flatMap (fromLeaf l.leafTypes l.records typeName name)) l.books
      (heirs.foldl (inheritFromLeaf limit) l).books := by
  -- Invariant: neither the leaf types nor what they require change on the way.
  have steps := Receives.foldl books (inheritFromLeaf limit)
    (fromLeaf l.leafTypes l.records typeName name) (SameTypes l) heirs
    (fun l' heir _ kept => by
      refine ⟨kept.trans (sameTypes_inheritFromLeaf limit l' heir), ?_⟩
      have one := receives_inheritFromLeaf limit l' heir typeName name
      unfold fromLeaf at one ⊢
      rwa [kept.leafTypes, kept.typeAt] at one)
    l (.refl l)
  exact steps.2

theorem typeAt_consolidate (limit : Nat) (roots : RootTypes) (types : Registry)
    (concrete : ConcreteTypes) (l : Ledger) (typeName : String) :
    (l.consolidate limit roots types concrete).records.typeAt typeName =
      (l.afterTypes limit roots types).records.typeAt typeName := by
  have interfaces := sameTypes_afterInterfaces limit types concrete (l.afterTypes limit roots types)
  have leaves := SameTypes.foldl (inheritFromLeaf limit) (sameTypes_inheritFromLeaf limit)
    ((l.afterTypes limit roots types).afterInterfaces limit types concrete).heirs
    ((l.afterTypes limit roots types).afterInterfaces limit types concrete)
  exact (interfaces.trans leaves).typeAt typeName

/-- Inheritance joins to a field what its type requires, then what the interfaces of its type have for
it, and then what its leaf type requires. -/
theorem receives_consolidate (limit : Nat) (roots : RootTypes) (types : Registry)
    (concrete : ConcreteTypes) (l : Ledger)
    (abstract : ∀ i ∈ coveringInterfaces limit types, ∀ j ∈ coveringInterfaces limit types,
      j ∉ (concrete.of i).toList) (typeName name : String) :
    Receives limit (·.fieldAt typeName name)
      (types.toList.flatMap (fromType limit roots typeName name) ++
        (coveringInterfaces limit types).flatMap
          (fromInterface concrete (l.afterTypes limit roots types).records typeName name) ++
        l.heirs.flatMap (fromLeaf l.leafTypes (l.afterTypes limit roots types).records typeName name))
      l.books (l.consolidate limit roots types concrete).books := by
  have first := receives_afterTypes limit roots types l typeName name
  have second := receives_afterInterfaces limit types concrete (l.afterTypes limit roots types) abstract
    typeName name
  have third := receives_heirs limit l.heirs
    ((l.afterTypes limit roots types).afterInterfaces limit types concrete) typeName name
  have kept := sameTypes_afterInterfaces limit types concrete (l.afterTypes limit roots types)
  have unchanged := leafTypes_afterTypes limit roots types l
  -- Leaf types are read after the interfaces, which leave them as they were.
  have same : fromLeaf l.leafTypes (l.afterTypes limit roots types).records typeName name =
      fromLeaf ((l.afterTypes limit roots types).afterInterfaces limit types concrete).leafTypes
        ((l.afterTypes limit roots types).afterInterfaces limit types concrete).records typeName name := by
    funext heir
    unfold fromLeaf
    rw [kept.leafTypes, kept.typeAt, unchanged.1]
  rw [same]
  have all := (first.trans second).trans third
  rw [← kept.heirs.trans unchanged.2] at all ⊢
  exact all

end Ledger

end Federation.Authorization
