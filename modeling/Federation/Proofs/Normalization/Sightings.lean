import Federation.Proofs.Authorization.Contribution
import Federation.Proofs.Authorization.Reading

/-!
# Sightings

What is declared on the fields and types of a valid subgraph, by the definitions and extensions of its text.
-/

namespace Federation

open Schema
open Authorization

/-- The type that a statement defines or extends. -/
def Schema.Statement.type? : Statement → Option TypeDefinition
  | .define (.type t) | .extendType t => some t
  | .define (.directive _) | .define (.schema _) | .extendSchema _ => none

/-- The definitions and extensions of a type, in order. Those that a federation serves by itself do not
count. -/
def definitions (statements : List Statement) (typeName : String) : List TypeDefinition :=
  (statements.filterMap Statement.type?).filter fun t => t.name = typeName && !Survey.isReservedType t

/-- The sightings of a field in the definitions and extensions of its type, in order. -/
def sightings (statements : List Statement) (typeName name : String) : List FieldDefinition :=
  (definitions statements typeName).flatMap fun t => t.fields.filter (·.name = name)

namespace Look

theorem type_mem_ofType {isExtension isExtension' : Bool} {t t' : TypeDefinition} :
    .type isExtension t ∈ ofType isExtension' t' ↔
      isExtension = isExtension' ∧ t = t' ∧ Survey.isReservedType t = false := by
  have outside : .type isExtension t ∉ inside isExtension' t' := by
    unfold inside
    cases t'.body <;> simp
  unfold ofType
  cases reserved : Survey.isReservedType t' with
  | true =>
    simp only [if_true, List.not_mem_nil, false_iff]
    rintro ⟨-, rfl, unreserved⟩
    exact absurd (reserved.symm.trans unreserved) Bool.noConfusion
  | false =>
    simp only [Bool.false_eq_true, if_false, List.mem_cons, outside, or_false, type.injEq]
    constructor
    · rintro ⟨rfl, rfl⟩
      exact ⟨rfl, rfl, reserved⟩
    · rintro ⟨rfl, rfl, -⟩
      exact ⟨rfl, rfl⟩

theorem field_mem_ofType {isExtension isExtension' : Bool} {t t' : TypeDefinition} {f : FieldDefinition} :
    .field isExtension t f ∈ ofType isExtension' t' ↔
      .type isExtension t ∈ ofType isExtension' t' ∧ f ∈ t.fields := by
  have within : .field isExtension t f ∈ inside isExtension' t' ↔
      isExtension = isExtension' ∧ t = t' ∧ f ∈ t'.fields := by
    unfold inside TypeDefinition.fields
    cases t'.body <;> simp [eq_comm, and_comm, and_assoc]
  rw [type_mem_ofType]
  unfold ofType
  cases reserved : Survey.isReservedType t' with
  | true =>
    simp only [if_true, List.not_mem_nil, false_iff]
    rintro ⟨⟨-, rfl, unreserved⟩, -⟩
    exact absurd (reserved.symm.trans unreserved) Bool.noConfusion
  | false =>
    simp only [Bool.false_eq_true, if_false, List.mem_cons, reduceCtorEq, false_or, within]
    constructor
    · rintro ⟨rfl, rfl, member⟩
      exact ⟨⟨rfl, rfl, reserved⟩, member⟩
    · rintro ⟨⟨rfl, rfl, -⟩, member⟩
      exact ⟨rfl, rfl, member⟩

theorem mem_all_field {statements : List Statement} {isExtension : Bool} {t : TypeDefinition}
    {f : FieldDefinition} :
    .field isExtension t f ∈ all statements ↔ .type isExtension t ∈ all statements ∧ f ∈ t.fields := by
  have typed : ∀ x : Statement, .field isExtension t f ∈ ofStatement x ↔
      .type isExtension t ∈ ofStatement x ∧ f ∈ t.fields := by
    intro x
    rcases x with (_ | _ | t') | _ | t'
    case define.type => exact field_mem_ofType
    case extendType => exact field_mem_ofType
    all_goals simp [ofStatement]
  simp only [all, List.mem_flatMap, typed]
  constructor
  · rintro ⟨x, listed, looked, member⟩
    exact ⟨⟨x, listed, looked⟩, member⟩
  · rintro ⟨⟨x, listed, looked⟩, member⟩
    exact ⟨x, listed, looked, member⟩

theorem mem_all_type {statements : List Statement} {t : TypeDefinition} :
    (∃ isExtension, .type isExtension t ∈ all statements) ↔
      t ∈ statements.filterMap Statement.type? ∧ Survey.isReservedType t = false := by
  have typed : ∀ x : Statement, (∃ isExtension, .type isExtension t ∈ ofStatement x) ↔
      x.type? = some t ∧ Survey.isReservedType t = false := by
    intro x
    rcases x with (_ | _ | t') | _ | t'
    case define.type => simp [ofStatement, Statement.type?, type_mem_ofType, eq_comm (a := t)]
    case extendType => simp [ofStatement, Statement.type?, type_mem_ofType, eq_comm (a := t)]
    all_goals simp [ofStatement, Statement.type?]
  simp only [all, List.mem_flatMap, List.mem_filterMap]
  constructor
  · rintro ⟨isExtension, x, listed, looked⟩
    have found := (typed x).mp ⟨isExtension, looked⟩
    exact ⟨⟨x, listed, found.1⟩, found.2⟩
  · rintro ⟨⟨x, listed, defined⟩, unreserved⟩
    obtain ⟨isExtension, looked⟩ := (typed x).mpr ⟨defined, unreserved⟩
    exact ⟨isExtension, x, listed, looked⟩

end Look

section Looks

variable {β : Type} {g : Look → List β} (schema : ∀ d, g (.schema d) = [])
  (enumValue : ∀ isExtension t v, g (.enumValue isExtension t v) = [])
  (inputValue : ∀ isExtension t v, g (.inputValue isExtension t v) = [])

include enumValue inputValue in
theorem flatMap_inside (isExtension : Bool) (t : TypeDefinition) :
    (Look.inside isExtension t).flatMap g = t.fields.flatMap fun f => g (.field isExtension t f) := by
  unfold Look.inside TypeDefinition.fields
  cases t.body with
  | interface implements fields => exact List.flatMap_map ..
  | object implements fields => exact List.flatMap_map ..
  | scalar => rfl
  | union members => rfl
  | enum values => simp [List.flatMap_map, enumValue]
  | inputObject fields => simp [List.flatMap_map, inputValue]

include enumValue inputValue in
theorem flatMap_ofType (h : TypeDefinition → List β) (isExtension : Bool) (t : TypeDefinition)
    (one : .type isExtension t ∈ Look.ofType isExtension t →
      g (.type isExtension t) ++ t.fields.flatMap (fun f => g (.field isExtension t f)) = h t) :
    (Look.ofType isExtension t).flatMap g =
      ([t].filter fun t => !Survey.isReservedType t).flatMap h := by
  unfold Look.ofType at one ⊢
  cases reserved : Survey.isReservedType t with
  | true => simp [reserved]
  | false =>
    simp only [reserved, Bool.false_eq_true, if_false] at one ⊢
    rw [List.flatMap_cons, flatMap_inside enumValue inputValue, one List.mem_cons_self]
    simp [reserved]

include schema enumValue inputValue in
/-- What is found only on types and fields is found by going through the definitions and extensions. -/
theorem flatMap_looks (statements : List Statement) (h : TypeDefinition → List β)
    (one : ∀ isExtension t, .type isExtension t ∈ Look.all statements →
      g (.type isExtension t) ++ t.fields.flatMap (fun f => g (.field isExtension t f)) = h t) :
    (Look.all statements).flatMap g =
      ((statements.filterMap Statement.type?).filter fun t => !Survey.isReservedType t).flatMap h := by
  induction statements with
  | nil => rfl
  | cons x rest ih =>
    have first : (Look.ofStatement x).flatMap g =
        (x.type?.toList.filter fun t => !Survey.isReservedType t).flatMap h := by
      -- Definitions and extensions of types are looked at in one way.
      have typed : ∀ isExtension t, Look.ofStatement x = Look.ofType isExtension t →
          (Look.ofType isExtension t).flatMap g =
            ([t].filter fun t => !Survey.isReservedType t).flatMap h := by
        intro isExtension t looks
        refine flatMap_ofType enumValue inputValue h isExtension t fun member => one isExtension t ?_
        exact List.mem_flatMap.mpr ⟨x, List.mem_cons_self, looks ▸ member⟩
      rcases x with (_ | d | t) | d | t
      case define.directive => rfl
      case define.type => exact typed false t rfl
      case extendType => exact typed true t rfl
      all_goals simp [Look.ofStatement, Statement.type?, schema]
    have later := ih fun isExtension t member => one isExtension t (List.mem_append_right _ member)
    have parts : (x :: rest).filterMap Statement.type? = x.type?.toList ++ rest.filterMap Statement.type? := by
      rw [List.filterMap_cons]
      cases x.type? <;> rfl
    rw [parts, List.filter_append, List.flatMap_append, ← first, ← later]
    exact List.flatMap_append

end Looks

theorem flatMap_definitions {β : Type} (statements : List Statement) (typeName : String)
    (h : TypeDefinition → List β) :
    (definitions statements typeName).flatMap h =
      ((statements.filterMap Statement.type?).filter fun t => !Survey.isReservedType t).flatMap
        fun t => if t.name = typeName then h t else [] := by
  rw [definitions, ← List.filter_filter, Assembly.flatMap_filter]
  simp only [decide_eq_true_eq]

theorem mem_definitions {statements : List Statement} {typeName : String} {t : TypeDefinition} :
    t ∈ definitions statements typeName ↔
      (∃ isExtension, .type isExtension t ∈ Look.all statements) ∧ t.name = typeName := by
  rw [Look.mem_all_type, definitions, List.mem_filter]
  simp only [Bool.and_eq_true, decide_eq_true_eq, Bool.not_eq_true', and_assoc, and_comm (a := t.name = _)]

namespace Survey.Coherent

variable {setting : Setting} {statements : List Statement} {s : Survey}
  (coherent : Coherent setting (Look.all statements) s) {typeName : String}

include coherent

theorem kind?_iff {kind : TypeKind} :
    s.types.kind? typeName = some kind ↔ ∃ t ∈ definitions statements typeName, t.kind = kind := by
  constructor
  · intro known
    have some : (s.types.kind? typeName).isSome = true := known ▸ rfl
    obtain ⟨isExtension, t, looked, same⟩ := coherent.defined typeName some
    have registered := coherent.registered isExtension t looked
    rw [same] at registered
    exact ⟨t, mem_definitions.mpr ⟨⟨isExtension, looked⟩, same⟩, Option.some.inj (registered.symm.trans known)⟩
  · rintro ⟨t, defined, rfl⟩
    obtain ⟨⟨isExtension, looked⟩, same⟩ := mem_definitions.mp defined
    exact same ▸ coherent.registered isExtension t looked

theorem mem_implemented_iff {interfaceName : String} :
    interfaceName ∈ s.types.implemented typeName ↔
      s.types.kind? typeName = some .object ∧
        ∃ t ∈ definitions statements typeName, interfaceName ∈ t.body.listedNames := by
  rw [Survey.mem_implemented]
  refine and_congr_right fun _ => (coherent.listed typeName interfaceName).trans ?_
  constructor
  · rintro ⟨isExtension, t, looked, same, listed⟩
    exact ⟨t, mem_definitions.mpr ⟨⟨isExtension, looked⟩, same⟩, listed⟩
  · rintro ⟨t, defined, listed⟩
    obtain ⟨⟨isExtension, looked⟩, same⟩ := mem_definitions.mp defined
    exact ⟨isExtension, t, looked, same, listed⟩

/-- The directives of all definitions of an object or interface count together. -/
theorem typeLevel_eq (limit : Nat) {kind : TypeKind} (known : s.types.kind? typeName = some kind)
    (composite : Intake.goesToLedger kind.location = false) :
    typeLevel limit (s.types.applied typeName) =
      Declared.on limit ((definitions statements typeName).flatMap TypeDefinition.directives) := by
  -- The registry keeps the directives look by look, and the looks at a type are its definitions.
  have applied : (definitions statements typeName).flatMap TypeDefinition.directives =
      (Look.all statements).flatMap (Look.appliedTo typeName) := by
    rw [flatMap_definitions]
    refine (flatMap_looks (fun _ => rfl) (fun _ _ _ => rfl) (fun _ _ _ => rfl) statements _
      fun isExtension t _ => ?_).symm
    simp [Look.appliedTo, eq_comm (a := typeName)]
  have named := coherent.applied typeName kind known composite
  rw [← applied] at named
  unfold typeLevel Declared.on
  have authenticated := named Vocabulary.authenticated (by simp)
  have scopes := named Vocabulary.requiresScopes (by simp)
  rw [List.countP_eq_length_filter]
  exact congr (congrArg (Declared.of _) (congrArg List.length authenticated)) scopes

end Survey.Coherent

theorem asked_flatMap {α : Type} (limit : Nat) (here : Host → Bool) (xs : List α)
    (f : α → List (Host × List Directive)) :
    Ledger.asked limit here (xs.flatMap f) = xs.flatMap fun x => Ledger.asked limit here (f x) := by
  simp [Ledger.asked, List.filter_flatMap, List.map_flatMap]

/-- Where requirements are declared: on a field, on an enum or scalar, or on an object or interface. -/
inductive Site
  | field (typeName name : String)
  | leaf (typeName : String)
  | composite (typeName : String)

namespace Site

def IsRegistered (types : Registry) : Site → Prop
  | field typeName name => (types.field? typeName name).isSome = true
  | leaf typeName => (types.kind? typeName).any TypeKind.isLeaf = true
  | composite typeName => (types.composite? typeName).isSome = true

/-- The directives on a site, in blocks that are read one by one. Those on all definitions of an object or
interface are read together. -/
def blocks (statements : List Statement) : Site → List (List Directive)
  | field typeName name => (sightings statements typeName name).map FieldDefinition.directives
  | leaf typeName => (definitions statements typeName).map TypeDefinition.directives
  | composite typeName => [(definitions statements typeName).flatMap TypeDefinition.directives]

end Site

/-- What is recorded for a site. -/
def NormalSubgraph.recordedAt (n : NormalSubgraph) : Site → Requirement
  | .field typeName name => n.authorization.fieldAt (n.roots.canonicalName typeName) name
  | .leaf typeName => n.authorization.typeAt typeName
  | .composite typeName => n.authorization.typeAt (n.roots.canonicalName typeName)

namespace Assembly

/-- What is recorded for a site before anything is inherited. Only fields inherit. -/
def declaredAt (a : Assembly) : Site → Requirement
  | .field typeName name => a.declaredOnField typeName name
  | site => a.result.recordedAt site

namespace Valid

variable {a : Assembly} {statements : List Statement}

/-- A registered field is looked at wherever its type has it. -/
theorem not_isServed (v : a.Valid statements) {typeName name : String}
    (known : (a.types.field? typeName name).isSome = true) {t : TypeDefinition}
    (registered : a.types.kind? typeName = some t.kind) (same : t.name = typeName) {f : FieldDefinition}
    (here : f.name = name) : Look.isServed a.setting t f = false := by
  obtain ⟨isExtension, t', f', looked, same', here', unserved⟩ := (v.coherent.fields typeName name).mp known
  have kind' := v.coherent.registered isExtension t' (Look.mem_all_field.mp looked).1
  have kind : t'.kind = t.kind := Option.some.inj ((same' ▸ kind').symm.trans registered)
  unfold Look.isServed at unserved ⊢
  rw [same, here, ← kind, ← same', ← here']
  exact unserved

/-- What is declared on a field, sighting by sighting. -/
theorem asked_isField (v : a.Valid statements) {typeName name : String}
    (known : (a.types.field? typeName name).isSome = true) :
    Ledger.asked a.setting.maxOrScopes (Host.isField (a.setting.roots.canonicalName typeName) name)
        (declarations a.setting statements) =
      (sightings statements typeName name).map fun f =>
        (Declared.on a.setting.maxOrScopes f.directives).asked := by
  obtain ⟨entry, c, found, -⟩ := exists_of_field? known
  unfold sightings
  rw [List.map_flatMap, flatMap_definitions, declarations, asked_flatMap]
  refine flatMap_looks (fun _ => rfl) (fun _ _ _ => rfl) (fun _ _ _ => rfl) statements _
    fun isExtension t looked => ?_
  have registered : a.types.kind? t.name = some t.kind := v.coherent.registered isExtension t looked
  -- Looks at types declare nothing on fields.
  have onType : Ledger.asked a.setting.maxOrScopes
      (Host.isField (a.setting.roots.canonicalName typeName) name)
      (Look.declarations a.setting (.type isExtension t)) = [] := by
    dsimp only [Look.declarations]
    split <;> rfl
  rw [onType, List.nil_append]
  split
  · next same =>
    subst same
    rw [← List.flatMap_singleton' (List.map _ _), List.flatMap_map, flatMap_filter]
    refine List.flatMap_congr fun f _ => ?_
    by_cases here : f.name = name
    · have unserved := v.not_isServed known registered rfl here
      simp [Look.declarations, unserved, Ledger.asked, Host.isField, here]
    · simp only [here, decide_false, Bool.false_eq_true, if_false]
      dsimp only [Look.declarations]
      split
      · rfl
      · simp [Ledger.asked, Host.isField, Ne.symm here]
  · next other =>
    refine List.flatMap_eq_nil_iff.mpr fun f _ => ?_
    have different : a.setting.roots.canonicalName typeName ≠ a.setting.roots.canonicalName t.name :=
      fun same => other (v.canonicalName_injective (Table.mem_keys_of_get? found)
        (mem_keys_of_kind? registered) same).symm
    dsimp only [Look.declarations]
    split
    · rfl
    · simp [Ledger.asked, Host.isField, different]

/-- What is declared on an enum or a scalar, definition by definition. -/
theorem asked_isLeaf (v : a.Valid statements) {typeName : String} {kind : TypeKind}
    (known : a.types.kind? typeName = some kind) (leaf : kind.isLeaf = true) :
    Ledger.asked a.setting.maxOrScopes (Host.isLeaf typeName) (declarations a.setting statements) =
      (definitions statements typeName).map fun t =>
        (Declared.on a.setting.maxOrScopes t.directives).asked := by
  rw [← List.flatMap_singleton' (List.map _ _), List.flatMap_map, flatMap_definitions, declarations,
    asked_flatMap]
  refine flatMap_looks (fun _ => rfl) (fun _ _ _ => rfl) (fun _ _ _ => rfl) statements _
    fun isExtension t looked => ?_
  have registered : a.types.kind? t.name = some t.kind := v.coherent.registered isExtension t looked
  have onFields : t.fields.flatMap (fun f => Ledger.asked a.setting.maxOrScopes (Host.isLeaf typeName)
      (Look.declarations a.setting (.field isExtension t f))) = [] := by
    refine List.flatMap_eq_nil_iff.mpr fun f _ => ?_
    dsimp only [Look.declarations]
    split <;> rfl
  rw [onFields, List.append_nil]
  split
  · next same =>
    subst same
    obtain rfl := Option.some.inj (registered.symm.trans known)
    simp [Look.declarations, leaf, Ledger.asked, Host.isLeaf]
  · next other =>
    dsimp only [Look.declarations]
    split
    · simp [Ledger.asked, Host.isLeaf, Ne.symm other]
    · rfl

theorem typeLevel_eq (v : a.Valid statements) {typeName : String} {kind : TypeKind}
    (known : a.types.kind? typeName = some kind) (composite : Intake.goesToLedger kind.location = false) :
    typeLevel a.setting.maxOrScopes (a.types.applied typeName) =
      Declared.on a.setting.maxOrScopes ((definitions statements typeName).flatMap TypeDefinition.directives) :=
  v.coherent.typeLevel_eq a.setting.maxOrScopes known composite

/-! ## What is read on a site -/

theorem within_declarations (v : a.Valid statements) :
    ∀ d ∈ declarations a.setting statements,
      (Declared.on a.setting.maxOrScopes d.2 matches .overLimit) = false := by
  have received := Ledger.receives_afterTypes a.setting.maxOrScopes a.setting.roots a.types a.survey.ledger "" ""
  have within : a.survey.ledger.overLimit.toList = [] := (received.room v.overLimit_afterTypes).1
  rw [v.coherent.declared] at within
  exact (Ledger.overLimit_declareAll a.setting.maxOrScopes .empty within).2

theorem goesToLedger_of_composite {entry : TypeEntry} (composite : entry.composite?.isSome = true) :
    Intake.goesToLedger entry.kind.location = false := by
  obtain ⟨_, _, _, _, shape⟩ := entry
  cases shape <;> first | rfl | exact absurd composite Bool.noConfusion

theorem typeLevel_of_get? (v : a.Valid statements) {typeName : String} {entry : TypeEntry}
    (found : a.types.get? typeName = some entry) (composite : entry.composite?.isSome = true) :
    typeLevel a.setting.maxOrScopes entry.directives =
      Declared.on a.setting.maxOrScopes
        ((definitions statements typeName).flatMap TypeDefinition.directives) := by
  have level := v.typeLevel_eq (congrArg (Option.map TypeEntry.kind) found) (goesToLedger_of_composite composite)
  simpa [Registry.applied, found] using level

theorem exists_of_composite? {types : Registry} {typeName : String}
    (known : (types.composite? typeName).isSome = true) :
    ∃ entry, types.get? typeName = some entry ∧ entry.composite?.isSome = true := by
  unfold Registry.composite? at known
  cases found : types.get? typeName with
  | none => simp [found] at known
  | some entry => exact ⟨entry, rfl, by simpa [found] using known⟩

/-- Before inheritance the requirement of a site is what its blocks ask for, gathered. -/
theorem declaredAt_eq (v : a.Valid statements) (site : Site) (registered : site.IsRegistered a.types) :
    a.declaredAt site =
      .gathered ((site.blocks statements).map fun b => (Declared.on a.setting.maxOrScopes b).asked) := by
  cases site with
  | field typeName name =>
    simp only [declaredAt, Site.blocks, List.map_map]
    rw [declaredOnField, v.coherent.fieldAt, v.asked_isField registered]
    rfl
  | leaf typeName =>
    obtain ⟨kind, known, leaf⟩ := (Option.any_eq_true _ _).mp registered
    simp only [declaredAt, Site.blocks, List.map_map]
    change a.ledger.records.typeAt typeName = _
    rw [v.typeAt_leaf known leaf, v.coherent.typeAt, v.asked_isLeaf known leaf]
    rfl
  | composite typeName =>
    obtain ⟨entry, found, composite⟩ := exists_of_composite? registered
    simp only [declaredAt, Site.blocks, List.map_cons, List.map_nil]
    change a.ledger.records.typeAt (a.setting.roots.canonicalName typeName) = _
    rw [v.typeAt_composite found composite, requiredByType_of_get? found, v.typeLevel_of_get? found composite]
    simp [Requirement.gathered]

theorem declaredOnField_eq (v : a.Valid statements) {typeName name : String}
    (known : (a.types.field? typeName name).isSome = true) :
    a.declaredOnField typeName name =
      .gathered ((sightings statements typeName name).map fun f =>
        (Declared.on a.setting.maxOrScopes f.directives).asked) := by
  have declared : a.declaredOnField typeName name = _ := v.declaredAt_eq (.field typeName name) known
  rw [declared, Site.blocks, List.map_map]
  rfl

/-- What is declared on a site is asked of every client in the end. -/
theorem declaredAt_of_recordedAt (v : a.Valid statements) (site : Site)
    (registered : site.IsRegistered a.types) {who : Credential} (met : who.Satisfies (a.result.recordedAt site)) :
    who.Satisfies (a.declaredAt site) := by
  cases site with
  | field typeName name => exact (v.satisfies_fieldAt registered who).mp met _ List.mem_cons_self
  | leaf typeName => exact met
  | composite typeName => exact met

/-- Every block is in order and within the limit. -/
theorem of_block (v : a.Valid statements) (site : Site) (registered : site.IsRegistered a.types)
    {applied : List Directive} (block : applied ∈ site.blocks statements) :
    InOrder applied ∧ (Declared.on a.setting.maxOrScopes applied matches .overLimit) = false := by
  cases site with
  | field typeName name =>
    obtain ⟨f, sighted, rfl⟩ := List.mem_map.mp block
    obtain ⟨t, defined, inside⟩ := List.mem_flatMap.mp sighted
    obtain ⟨inside, here⟩ := List.mem_filter.mp inside
    obtain ⟨⟨isExtension, looked⟩, same⟩ := mem_definitions.mp defined
    have known := v.coherent.registered isExtension t looked
    have unserved := v.not_isServed registered (same ▸ known) same (of_decide_eq_true here)
    have seen : .field isExtension t f ∈ Look.all statements := Look.mem_all_field.mpr ⟨looked, inside⟩
    refine ⟨inOrder_of_allows (v.coherent.allowedOnField isExtension t f seen unserved), ?_⟩
    refine v.within_declarations (.field t.name (a.setting.roots.canonicalName t.name) f.name, f.directives) ?_
    exact List.mem_flatMap.mpr ⟨_, seen, by simp [Look.declarations, unserved]⟩
  | leaf typeName =>
    obtain ⟨t, defined, rfl⟩ := List.mem_map.mp block
    obtain ⟨kind, known, leaf⟩ := (Option.any_eq_true _ _).mp registered
    obtain ⟨⟨isExtension, looked⟩, same⟩ := mem_definitions.mp defined
    obtain rfl := Option.some.inj ((v.coherent.registered isExtension t looked).symm.trans (same ▸ known))
    refine ⟨inOrder_of_allows (v.coherent.allowedOnType isExtension t looked), ?_⟩
    refine v.within_declarations (.leaf t.name, t.directives) ?_
    exact List.mem_flatMap.mpr ⟨_, looked, by simp [Look.declarations, leaf]⟩
  | composite typeName =>
    -- All definitions of an object make up one block, from which its own requirement was read.
    obtain rfl := List.mem_singleton.mp block
    obtain ⟨entry, found, composite⟩ := exists_of_composite? registered
    have room := Ledger.typeLevel_of_afterTypes a.setting.maxOrScopes a.setting.roots a.types a.survey.ledger
      v.overLimit_afterTypes (typeName, entry) (Table.mem_toList.mpr found) composite
    refine ⟨fun d member name => ?_, v.typeLevel_of_get? found composite ▸ room⟩
    obtain ⟨t, defined, inside⟩ := List.mem_flatMap.mp member
    obtain ⟨⟨isExtension, looked⟩, -⟩ := mem_definitions.mp defined
    exact inOrder_of_allows (v.coherent.allowedOnType isExtension t looked) d inside name

end Valid

end Assembly

end Federation
