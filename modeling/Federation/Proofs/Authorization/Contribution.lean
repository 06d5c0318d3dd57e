import Federation.Proofs.Normalization.Valid
import Federation.Proofs.Survey.Declared

/-!
# What bears on a field

The recorded requirement of a field joins what its own declarations ask for with what its type requires, what
the interfaces of its type ask of it and require, and what the enum or scalar that it names requires.
-/

namespace Federation

open Schema
open Authorization

namespace Assembly

variable (a : Assembly)

/-- What the declarations of a field ask for, as the survey records it. -/
def declaredOnField (typeName name : String) : Requirement :=
  a.survey.ledger.records.fieldAt (a.setting.roots.canonicalName typeName) name

/-- What an object or interface requires. -/
def requiredByType (typeName : String) : Requirement :=
  (typeLevel a.setting.maxOrScopes (a.types.applied typeName)).asked

/-- What the enum or scalar that a field names requires. -/
def requiredByLeaf (typeName name : String) : Requirement :=
  match a.types.field? typeName name with
  | none => .none
  | some field =>
    if (a.types.kind? field.type.namedType).any TypeKind.isLeaf then
      a.survey.ledger.records.typeAt field.type.namedType
    else .none

/-- Whether an interface has a requirement of its own. -/
def covers (interfaceName : String) : Bool :=
  a.types.kind? interfaceName = some .interface &&
    typeLevel a.setting.maxOrScopes (a.types.applied interfaceName) matches .requirement _

/-- The interfaces of an object that have a requirement of their own and the field. -/
def interfacesOver (typeName name : String) : List String :=
  a.types.keys.filter fun interfaceName =>
    interfaceName ∈ a.types.implemented typeName && a.covers interfaceName &&
      (a.types.field? interfaceName name).isSome

/-- What a field takes over. What interfaces ask of a root type under another name does not reach it. -/
def inherited (typeName name : String) : List Requirement :=
  [a.requiredByType typeName] ++
    (if a.setting.roots.canonicalName typeName = typeName then
      (a.interfacesOver typeName name).flatMap fun interfaceName =>
        [a.declaredOnField interfaceName name, a.requiredByType interfaceName]
    else []) ++
    [a.requiredByLeaf typeName name]

/-- Everything that bears on a field. -/
def contributions (typeName name : String) : List Requirement :=
  a.declaredOnField typeName name :: a.inherited typeName name

variable {a} {statements : List Statement}

theorem flatMap_filter {α β : Type} (xs : List α) (keep : α → Bool) (f : α → List β) :
    (xs.filter keep).flatMap f = xs.flatMap fun x => if keep x then f x else [] := by
  induction xs with
  | nil => rfl
  | cons x xs ih =>
    rw [List.filter_cons, List.flatMap_cons, ← ih]
    split <;> rfl

/-- Interfaces that pass a requirement on, by what is seen of the registry. -/
theorem coveringInterfaces_eq :
    coveringInterfaces a.setting.maxOrScopes a.types = a.types.keys.filter a.covers := by
  -- Whether a name covers is asked of the whole table, so it is turned into a question about entries before the
  -- induction.
  have seen : ∀ e ∈ a.types.toList, a.covers e.1 =
      (decide (e.2.kind = .interface) && (typeLevel a.setting.maxOrScopes e.2.directives matches .requirement _)) := by
    intro e member
    have found : a.types.get? e.1 = some e.2 := Table.mem_toList.mp member
    simp [covers, Registry.kind?, Registry.applied, found]
  unfold coveringInterfaces Table.keys
  revert seen
  induction a.types.toList with
  | nil => intro _; rfl
  | cons e rest ih =>
    intro seen
    have first := seen e List.mem_cons_self
    rw [List.filterMap_cons, ih fun e' member => seen e' (List.mem_cons_of_mem e member), List.map_cons,
      List.filter_cons, first]
    obtain ⟨name, entry⟩ := e
    dsimp only
    cases entry.kind <;> cases typeLevel a.setting.maxOrScopes entry.directives <;> rfl

theorem requiredByType_of_get? {typeName : String} {entry : TypeEntry}
    (registered : a.types.get? typeName = some entry) :
    a.requiredByType typeName = (typeLevel a.setting.maxOrScopes entry.directives).asked := by
  simp [requiredByType, Registry.applied, registered]

theorem exists_of_field? {types : Registry} {typeName name : String}
    (known : (types.field? typeName name).isSome = true) :
    ∃ entry c, types.get? typeName = some entry ∧ entry.composite? = some c ∧ name ∈ c.fields.keys := by
  unfold Registry.field? Registry.composite? at known
  cases registered : types.get? typeName with
  | none => simp [registered] at known
  | some entry =>
    cases composite : entry.composite? with
    | none => simp [registered, composite] at known
    | some c =>
      refine ⟨entry, c, rfl, composite, Table.get?_isSome_iff.mp ?_⟩
      simpa [registered, composite] using known

theorem mem_keys_of_kind? {types : Registry} {typeName : String} {kind : TypeKind}
    (known : types.kind? typeName = some kind) : typeName ∈ types.keys := by
  obtain ⟨entry, found, -⟩ := Option.map_eq_some_iff.mp known
  exact Table.mem_keys_of_get? found

namespace Valid

/-! ## From types -/

/-- Of all registered types only its own passes a requirement on to a field. -/
theorem fromType_eq (v : a.Valid statements) {typeName name : String}
    (known : (a.types.field? typeName name).isSome = true) :
    a.types.toList.flatMap (Ledger.fromType a.setting.maxOrScopes a.setting.roots
        (a.setting.roots.canonicalName typeName) name) =
      match typeLevel a.setting.maxOrScopes (a.types.applied typeName) with
      | .requirement r => [r]
      | _ => [] := by
  obtain ⟨entry, c, registered, composite, field⟩ := exists_of_field? known
  rw [a.types.flatMap_toList typeName, registered]
  · simp only [Option.toList_some, List.flatMap_cons, List.flatMap_nil, List.append_nil, Ledger.fromType,
      composite, Registry.applied, registered, Option.map_some, Option.getD_some]
    cases typeLevel a.setting.maxOrScopes entry.directives <;> simp [field]
  · intro e member other
    have found : a.types.get? e.1 = some e.2 := Table.mem_toList.mp member
    -- Another type has another canonical name, so that nothing of it arrives here.
    have different : a.setting.roots.canonicalName typeName ≠ a.setting.roots.canonicalName e.1 :=
      fun same => other (v.canonicalName_injective (Table.mem_keys_of_get? registered)
        (Table.mem_keys_of_get? found) same).symm
    unfold Ledger.fromType
    split
    · exact if_neg fun both => different both.1
    · rfl

theorem alike_fromType (v : a.Valid statements) {typeName name : String}
    (known : (a.types.field? typeName name).isSome = true) :
    Requirement.Alike
      (a.types.toList.flatMap (Ledger.fromType a.setting.maxOrScopes a.setting.roots
        (a.setting.roots.canonicalName typeName) name))
      [a.requiredByType typeName] := by
  rw [v.fromType_eq known]
  unfold requiredByType
  cases typeLevel a.setting.maxOrScopes (a.types.applied typeName) with
  | requirement r => exact .refl [r]
  | nothing => exact .nothing
  | overLimit => exact .nothing

/-! ## From interfaces -/

theorem kind?_of_covers {interfaceName : String} (covers : a.covers interfaceName = true) :
    a.types.kind? interfaceName = some .interface := by
  simp only [Assembly.covers, Bool.and_eq_true, decide_eq_true_eq] at covers
  exact covers.1

theorem typeLevel_of_covers {interfaceName : String} (covers : a.covers interfaceName = true) :
    ∃ r, typeLevel a.setting.maxOrScopes (a.types.applied interfaceName) = .requirement r := by
  simp only [Assembly.covers, Bool.and_eq_true] at covers
  obtain ⟨-, level⟩ := covers
  cases found : typeLevel a.setting.maxOrScopes (a.types.applied interfaceName) with
  | requirement r => exact ⟨r, rfl⟩
  | nothing => simp [found] at level
  | overLimit => simp [found] at level

theorem mem_interfacesOver {typeName name interfaceName : String} :
    interfaceName ∈ a.interfacesOver typeName name ↔
      interfaceName ∈ a.types.implemented typeName ∧ a.covers interfaceName = true ∧
        (a.types.field? interfaceName name).isSome = true := by
  simp only [interfacesOver, List.mem_filter, Bool.and_eq_true, decide_eq_true_eq, and_assoc]
  exact and_iff_right_of_imp fun h => mem_keys_of_kind? (kind?_of_covers h.2.1)

/-- The concrete types of an interface are the objects that implement it. -/
theorem mem_concrete (v : a.Valid statements) {interfaceName typeName : String}
    (interface : a.types.kind? interfaceName = some .interface) :
    typeName ∈ (a.survey.concrete.of interfaceName).toList ↔
      interfaceName ∈ a.types.implemented typeName := by
  rw [v.coherent.concrete]
  constructor
  · rintro (⟨union, -⟩ | implements)
    · exact absurd (Option.some.inj (union.symm.trans interface)) nofun
    · exact implements
  · exact Or.inr

/-- No interface that passes a requirement on receives one from another. -/
theorem not_mem_concrete (v : a.Valid statements) {interfaceName other : String}
    (covers : a.covers interfaceName = true) (covers' : a.covers other = true) :
    other ∉ (a.survey.concrete.of interfaceName).toList := by
  rw [v.mem_concrete (kind?_of_covers covers), Survey.mem_implemented, kind?_of_covers covers']
  simp

/-- The records with which interfaces begin to pass their requirements on. -/
def afterTypes (a : Assembly) : Ledger :=
  a.survey.ledger.afterTypes a.setting.maxOrScopes a.setting.roots a.types

/-- What an interface has for a field when it passes it on: what is declared on its own field and what the
interface requires. -/
theorem fieldAt_afterTypes (v : a.Valid statements) (within : (afterTypes a).overLimit.toList = [])
    {interfaceName name : String} (covers : a.covers interfaceName = true)
    (known : (a.types.field? interfaceName name).isSome = true) :
    (afterTypes a).records.fieldAt interfaceName name =
        (a.declaredOnField interfaceName name).conjoin a.setting.maxOrScopes
          (a.requiredByType interfaceName) ∧
      (a.declaredOnField interfaceName name).fits a.setting.maxOrScopes
        (a.requiredByType interfaceName) = true := by
  have own := v.canonicalName_of_not_object (kind?_of_covers covers) (by decide)
  have given := v.fromType_eq known
  have received := Ledger.receives_afterTypes a.setting.maxOrScopes a.setting.roots a.types a.survey.ledger
    interfaceName name
  rw [own] at given
  rw [given] at received
  have room := (received.room within).2
  have joined := received.joined
  obtain ⟨r, level⟩ := typeLevel_of_covers covers
  unfold declaredOnField requiredByType
  rw [own, level]
  rw [level] at joined room
  exact ⟨joined, room.1⟩

/-- The record of an interface that passes its requirement on has exactly the fields of the interface. -/
theorem mem_fields_afterTypes (v : a.Valid statements) {interfaceName name : String}
    (covers : a.covers interfaceName = true) :
    name ∈ ((afterTypes a).records.of interfaceName).fields.keys ↔
      (a.types.field? interfaceName name).isSome = true := by
  have own := v.canonicalName_of_not_object (kind?_of_covers covers) (by decide)
  have registered := mem_keys_of_kind? (kind?_of_covers covers)
  have passes := Ledger.mem_fields_afterTypes a.setting.maxOrScopes a.setting.roots a.types a.survey.ledger
    interfaceName name
  constructor
  -- A field of the record was declared on a field of the interface, or the interface covers it.
  · intro member
    rcases passes.mp member with before | ⟨e, listed, given⟩
    · obtain ⟨typeName, same, known⟩ := v.coherent.field?_of_mem_fields before
      rw [← v.eq_of_canonicalName registered same]
      exact known
    · have found : a.types.get? e.1 = some e.2 := Table.mem_toList.mp listed
      unfold Ledger.fromType at given
      split at given
      · next c r composite level =>
        split at given
        · next both =>
          rw [← v.eq_of_canonicalName registered both.1.symm]
          unfold Registry.field? Registry.composite?
          rw [found, Option.bind_some, composite, Option.bind_some]
          exact Table.get?_isSome_iff.mpr both.2
        · exact absurd rfl given
      · exact absurd rfl given
  -- The interface has a requirement of its own, and the pass over the types gave it to each field.
  · intro known
    have given := v.fromType_eq known
    rw [own] at given
    obtain ⟨r, level⟩ := typeLevel_of_covers covers
    rw [level] at given
    refine passes.mpr (Or.inr ?_)
    by_contra absent
    have nothing := List.flatMap_eq_nil_iff.mpr fun e member => by_contra fun given => absent ⟨e, member, given⟩
    exact absurd (given.symm.trans nothing) (List.cons_ne_nil _ _)

/-- An interface that the type implements gives what it has for the field, which is two requirements in one. -/
theorem alike_fromInterface_of_covers (v : a.Valid statements) (within : (afterTypes a).overLimit.toList = [])
    {interfaceName : String} (covers : a.covers interfaceName = true) (typeName name : String) :
    Requirement.Alike
      (Ledger.fromInterface a.survey.concrete (afterTypes a).records typeName name interfaceName)
      (if interfaceName ∈ a.types.implemented typeName && (a.types.field? interfaceName name).isSome then
        [a.declaredOnField interfaceName name, a.requiredByType interfaceName]
      else []) := by
  unfold Ledger.fromInterface
  rw [if_congr (v.mem_concrete (kind?_of_covers covers)) rfl rfl]
  by_cases implements : interfaceName ∈ a.types.implemented typeName
  · cases known : (a.types.field? interfaceName name).isSome with
    | true =>
      obtain ⟨r, found⟩ := Table.exists_get?_of_mem_keys ((v.mem_fields_afterTypes covers).mpr known)
      have same : (afterTypes a).records.fieldAt interfaceName name = r := by
        simp [Records.fieldAt, Record.field, Table.getD, found]
      obtain ⟨joined, room⟩ := v.fieldAt_afterTypes within covers known
      rw [← same, joined] at found
      simp only [implements, found, if_true, Option.toList_some, decide_true, Bool.true_and]
      exact .conjoin a.setting.maxOrScopes _ _ room
    -- A field that the interface lacks has no record that could be passed on.
    | false =>
      have absent : ((afterTypes a).records.of interfaceName).fields.get? name = none := by
        rw [Table.get?_eq_none_iff, v.mem_fields_afterTypes covers, known]
        exact Bool.noConfusion
      simp only [implements, absent, if_true, Option.toList_none, decide_true, Bool.true_and, Bool.false_eq_true,
        if_false]
      exact .refl []
  · simp only [implements, if_false, decide_false, Bool.false_and, Bool.false_eq_true]
    exact .refl []

theorem alike_fromInterface (v : a.Valid statements) (within : (afterTypes a).overLimit.toList = [])
    (typeName name : String) :
    Requirement.Alike
      ((coveringInterfaces a.setting.maxOrScopes a.types).flatMap
        (Ledger.fromInterface a.survey.concrete (afterTypes a).records
          (a.setting.roots.canonicalName typeName) name))
      (if a.setting.roots.canonicalName typeName = typeName then
        (a.interfacesOver typeName name).flatMap fun interfaceName =>
          [a.declaredOnField interfaceName name, a.requiredByType interfaceName]
      else []) := by
  rw [coveringInterfaces_eq]
  split
  · next own =>
    have parts : a.interfacesOver typeName name = (a.types.keys.filter a.covers).filter
        fun interfaceName => interfaceName ∈ a.types.implemented typeName &&
          (a.types.field? interfaceName name).isSome := by
      rw [interfacesOver, List.filter_filter]
      exact List.filter_congr fun interfaceName _ => by
        cases a.covers interfaceName <;> simp
    rw [own, parts, flatMap_filter _ _ fun interfaceName => [a.declaredOnField interfaceName name,
      a.requiredByType interfaceName]]
    exact .flatMap _ _ _ fun interfaceName member =>
      v.alike_fromInterface_of_covers within (List.mem_filter.mp member).2 typeName name
  · next renamed =>
    -- Interfaces look for a type under its canonical name. Where that is another one, no type is registered by it.
    have nothing : (a.types.keys.filter a.covers).flatMap (Ledger.fromInterface a.survey.concrete
        (afterTypes a).records (a.setting.roots.canonicalName typeName) name) = [] := by
      refine List.flatMap_eq_nil_iff.mpr fun interfaceName member => ?_
      have covers := (List.mem_filter.mp member).2
      refine if_neg fun concrete => renamed ?_
      have implements := (v.mem_concrete (kind?_of_covers covers)).mp concrete
      have known := mem_keys_of_kind? (Survey.mem_implemented.mp implements).1
      exact (v.eq_of_canonicalName known rfl).symm
    rw [nothing]
    exact .refl []

/-! ## From leaf types -/

theorem isLeaf_of_composite? {entry : TypeEntry} (composite : entry.composite?.isSome = true) :
    entry.kind.isLeaf = false := by
  obtain ⟨_, _, _, _, shape⟩ := entry
  cases shape <;> first | rfl | exact absurd composite Bool.noConfusion

theorem typeAt_afterTypes_of_leaf (v : a.Valid statements) {leafName : String} {kind : TypeKind}
    (known : a.types.kind? leafName = some kind) (leaf : kind.isLeaf = true) :
    (afterTypes a).records.typeAt leafName = a.survey.ledger.records.typeAt leafName := by
  refine Ledger.typeAt_foldl_inheritFromType _ _ leafName _ _ (fun e listed c r composite _ same => ?_) _
    (Or.inl rfl)
  -- An object or interface of this canonical name would be the leaf type itself.
  have found : a.types.get? e.1 = some e.2 := Table.mem_toList.mp listed
  have here := v.eq_of_canonicalName (mem_keys_of_kind? known) same.symm
  have kind' : a.types.kind? leafName = some e.2.kind := by
    rw [← here]
    exact congrArg (Option.map TypeEntry.kind) found
  obtain rfl := Option.some.inj (kind'.symm.trans known)
  exact absurd leaf (by simp [isLeaf_of_composite? (composite ▸ rfl : e.2.composite?.isSome = true)])

theorem alike_fromLeaf (v : a.Valid statements) {typeName : String} (registered : typeName ∈ a.types.keys)
    (name : String) :
    Requirement.Alike
      (a.survey.ledger.heirs.flatMap
        (Ledger.fromLeaf a.survey.ledger.leafTypes (afterTypes a).records
          (a.setting.roots.canonicalName typeName) name))
      [a.requiredByLeaf typeName name] := by
  have heirs : a.survey.ledger.heirs.flatMap (Ledger.fromLeaf a.survey.ledger.leafTypes
      (afterTypes a).records (a.setting.roots.canonicalName typeName) name) =
      (a.survey.ledger.heirs.filter fun heir => heir.parent = typeName ∧ heir.field = name).flatMap
        fun heir => if heir.namedType ∈ a.survey.ledger.leafTypes.toList then
          [(afterTypes a).records.typeAt heir.namedType] else [] := by
    rw [flatMap_filter]
    refine List.flatMap_congr fun heir member => ?_
    obtain ⟨known, canonical⟩ := v.coherent.of_mem_heirs member
    obtain ⟨entry, c, found, -⟩ := exists_of_field? known
    -- Heirs are kept under canonical names, which tell registered types apart.
    have same : a.setting.roots.canonicalName typeName = heir.canonicalParent ↔ heir.parent = typeName := by
      rw [canonical]
      constructor
      · exact fun same => (v.canonicalName_injective registered (Table.mem_keys_of_get? found) same).symm
      · exact fun same => same ▸ rfl
    have same' : name = heir.field ↔ heir.field = name := eq_comm
    unfold Ledger.fromLeaf
    simp only [same, same']
    by_cases here : heir.parent = typeName ∧ heir.field = name <;> simp [here]
  rw [heirs, v.coherent.heirs]
  unfold requiredByLeaf
  change Requirement.Alike _ [match a.survey.types.field? typeName name with
    | none => _
    | some field => _]
  cases a.survey.types.field? typeName name with
  | none => exact .nothing
  | some field =>
    simp only [Option.toList_some, List.map_cons, List.map_nil, List.flatMap_cons, List.flatMap_nil,
      List.append_nil]
    split
    · next leaf =>
      obtain ⟨kind, known, isLeaf⟩ := v.coherent.kind?_of_mem_leafTypes leaf
      have known' : a.types.kind? field.type.namedType = some kind := known
      rw [v.typeAt_afterTypes_of_leaf known' isLeaf]
      simp only [known', Option.any_some, isLeaf, if_true]
      exact .refl _
    · next other =>
      rw [v.coherent.typeAt_of_not_mem_leafTypes other, ite_self]
      exact .nothing

/-! ## All together -/

theorem abstract_covering (v : a.Valid statements) :
    ∀ i ∈ coveringInterfaces a.setting.maxOrScopes a.types,
      ∀ j ∈ coveringInterfaces a.setting.maxOrScopes a.types, j ∉ (a.survey.concrete.of i).toList := by
  intro i hi j hj
  rw [coveringInterfaces_eq] at hi hj
  exact v.not_mem_concrete (List.mem_filter.mp hi).2 (List.mem_filter.mp hj).2

/-- No host was over the limit when interfaces began to pass their requirements on. -/
theorem overLimit_afterTypes (v : a.Valid statements) : (afterTypes a).overLimit.toList = [] := by
  have interfaces := Ledger.receives_afterInterfaces a.setting.maxOrScopes a.types a.survey.concrete
    (afterTypes a) v.abstract_covering "" ""
  have leaves := Ledger.receives_heirs a.setting.maxOrScopes
    ((afterTypes a).afterInterfaces a.setting.maxOrScopes a.types a.survey.concrete).heirs
    ((afterTypes a).afterInterfaces a.setting.maxOrScopes a.types a.survey.concrete) "" ""
  have within := v.within
  rw [v.ledger] at within
  exact (interfaces.room (leaves.room within).1).1

/-- The recorded requirement of a field joins what it takes over to its own, and there is room for each. -/
theorem receives_field (v : a.Valid statements) {typeName name : String}
    (known : (a.types.field? typeName name).isSome = true) :
    ∃ given, Requirement.Alike given (a.inherited typeName name) ∧
      a.ledger.records.fieldAt (a.setting.roots.canonicalName typeName) name =
        (a.declaredOnField typeName name).joinAll a.setting.maxOrScopes given ∧
      (a.declaredOnField typeName name).FitsAll a.setting.maxOrScopes given := by
  obtain ⟨entry, c, found, -⟩ := exists_of_field? known
  have registered := Table.mem_keys_of_get? found
  have received := Ledger.receives_consolidate a.setting.maxOrScopes a.setting.roots a.types
    a.survey.concrete a.survey.ledger v.abstract_covering (a.setting.roots.canonicalName typeName) name
  have within := v.within
  rw [v.ledger] at within ⊢
  refine ⟨_, ?_, received.joined, (received.room within).2⟩
  exact ((v.alike_fromType known).append
    (v.alike_fromInterface v.overLimit_afterTypes typeName name)).append (v.alike_fromLeaf registered name)

/-- A client meets the recorded requirement of a field just where it meets everything that bears on it. -/
theorem satisfies_fieldAt (v : a.Valid statements) {typeName name : String}
    (known : (a.types.field? typeName name).isSome = true) (who : Credential) :
    who.Satisfies (a.ledger.records.fieldAt (a.setting.roots.canonicalName typeName) name) ↔
      ∀ r ∈ a.contributions typeName name, who.Satisfies r := by
  obtain ⟨given, alike, joined, room⟩ := v.receives_field known
  rw [joined, Requirement.satisfies_joinAll who _ _ _ room, alike.satisfied who]
  simp [contributions]

/-- The recorded requirement has one alternative for each way of choosing from the contributions. -/
theorem length_fieldAt (v : a.Valid statements) {typeName name : String}
    (known : (a.types.field? typeName name).isSome = true) :
    (a.ledger.records.fieldAt (a.setting.roots.canonicalName typeName) name).scopes.length =
      Requirement.alternatives (a.contributions typeName name) := by
  obtain ⟨given, alike, joined, room⟩ := v.receives_field known
  rw [joined, Requirement.length_joinAll _ _ _ room]
  exact ((Requirement.Alike.refl [a.declaredOnField typeName name]).append alike).alternatives_eq

/-- The recorded requirement of an object or interface is the one that is declared on it. -/
theorem typeAt_composite (v : a.Valid statements) {typeName : String} {entry : TypeEntry}
    (registered : a.types.get? typeName = some entry) (composite : entry.composite?.isSome = true) :
    a.ledger.records.typeAt (a.setting.roots.canonicalName typeName) = a.requiredByType typeName := by
  -- The survey records requirements of types only for enums and scalars.
  have unrecorded : a.survey.ledger.records.typeAt (a.setting.roots.canonicalName typeName) = .none := by
    refine v.coherent.typeAt_of_not_mem_leafTypes fun leaf => ?_
    obtain ⟨kind, known, isLeaf⟩ := v.coherent.kind?_of_mem_leafTypes leaf
    have here := v.eq_of_canonicalName (mem_keys_of_kind? known) rfl
    rw [← here] at known
    obtain rfl := Option.some.inj ((congrArg (Option.map TypeEntry.kind) registered).symm.trans known)
    exact absurd isLeaf (by simp [isLeaf_of_composite? composite])
  rw [v.ledger, Ledger.typeAt_consolidate, requiredByType_of_get? registered]
  refine Ledger.typeAt_foldl_inheritFromType _ _ _ _ _ (fun e listed c r _ level same => ?_) _ ?_
  · have found : a.types.get? e.1 = some e.2 := Table.mem_toList.mp listed
    have here := v.canonicalName_injective (Table.mem_keys_of_get? registered)
      (Table.mem_keys_of_get? found) same
    rw [← here, registered] at found
    obtain rfl := Option.some.inj found
    rw [level]
    rfl
  · cases level : typeLevel a.setting.maxOrScopes entry.directives with
    | requirement r =>
      exact Or.inr ⟨(typeName, entry), Table.mem_toList.mpr registered, composite, level, rfl⟩
    | nothing => exact Or.inl unrecorded
    | overLimit => exact Or.inl unrecorded

/-- The recorded requirement of an enum or a scalar is the one that is declared on it. -/
theorem typeAt_leaf (v : a.Valid statements) {typeName : String} {kind : TypeKind}
    (known : a.types.kind? typeName = some kind) (leaf : kind.isLeaf = true) :
    a.ledger.records.typeAt typeName = a.survey.ledger.records.typeAt typeName := by
  rw [v.ledger, Ledger.typeAt_consolidate]
  exact v.typeAt_afterTypes_of_leaf known leaf

end Valid

end Assembly

end Federation
