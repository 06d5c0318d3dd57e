import Federation.Proofs.Document.Reference
import Federation.Proofs.Implementation.Narrowing

/-!
# Implementations stand in for their interfaces

What asks an interface for a field may be answered by any type that implements it: the field is there, it takes the
same arguments, and what it answers keeps the interface's promise. Arguments are compared by their types alone, so that
a default which only the interface has is missed by calls that rely on it.
-/

namespace Federation

open Schema

namespace Field

/-- Whether a field may be called with exactly the arguments of these names. -/
structure Accepts (f : Field) (supplied : List String) : Prop where
  known : ∀ name ∈ supplied, f.arguments.contains name = true
  required : ∀ name argument, f.arguments.get? name = some argument → argument.type.isNonNull = true →
    argument.default? = none → name ∈ supplied

instance (f : Field) (supplied : List String) : Decidable (f.Accepts supplied) :=
  decidable_of_iff ((∀ name ∈ supplied, f.arguments.contains name = true) ∧ ∀ e ∈ f.arguments.toList,
      e.2.type.isNonNull = true → e.2.default? = none → e.1 ∈ supplied)
    ⟨fun h => ⟨h.1, fun _ _ known => h.2 _ (Table.mem_toList.mpr known)⟩,
      fun h => ⟨h.known, fun _ member => h.required _ _ (Table.mem_toList.mp member)⟩⟩

/-- Whether an argument may be left out of a field because of a default that another field does not have. -/
def LosesDefault (declared given : Field) (name : String) : Prop :=
  ∃ argument other, declared.arguments.get? name = some argument ∧ given.arguments.get? name = some other ∧
    other.type.isNonNull = true ∧ argument.default? ≠ none ∧ other.default? = none

/-- A field that may be called wherever another may be, but for arguments that lose their defaults. -/
structure TakesCallsOf (given declared : Field) : Prop where
  arguments : ∀ name argument, declared.arguments.get? name = some argument →
    ∃ other, given.arguments.get? name = some other ∧ other.type = argument.type
  accepts : ∀ supplied, declared.Accepts supplied →
    (given.Accepts supplied ↔ ∀ name, LosesDefault declared given name → name ∈ supplied)

end Field

namespace Implementation

section CompareField

variable {concrete : ConcreteTypes} {isInaccessible : Bool} {declared given : Field}
  (fits : (compareField concrete isInaccessible declared given).isNone = true)

include fits

theorem narrows_of_compareField : declared.type.narrows concrete.isConcrete given.type = true := by
  simp only [FieldMismatch.isNone, compareField, Bool.and_eq_true] at fits
  obtain ⟨⟨⟨⟨type, -⟩, -⟩, -⟩, -⟩ := fits
  split at type
  · assumption
  · cases type

theorem argument_of_compareField {name : String} {argument : InputValue}
    (known : declared.arguments.get? name = some argument) :
    ∃ other, given.arguments.get? name = some other ∧ other.type = argument.type := by
  simp only [FieldMismatch.isNone, compareField, Bool.and_eq_true, List.isEmpty_iff] at fits
  obtain ⟨⟨⟨⟨-, missing⟩, mismatched⟩, -⟩, -⟩ := fits
  have present := List.filter_eq_nil_iff.mp missing name (Table.mem_keys_of_get? known)
  obtain ⟨other, found⟩ := Table.exists_get?_of_mem_keys (Table.contains_iff.mp (by simpa using present))
  have same := List.filterMap_eq_nil_iff.mp mismatched (name, argument) (Table.mem_toList.mpr known)
  simp only [found] at same
  split at same
  · next equal => exact ⟨other, found, equal.symm⟩
  · cases same

/-- An argument that only the implementation has may be left out. -/
theorem default_of_compareField {name : String} {other : InputValue} (extra : declared.arguments.get? name = none)
    (found : given.arguments.get? name = some other) (nonNull : other.type.isNonNull = true) :
    other.default? ≠ none := by
  simp only [FieldMismatch.isNone, compareField, Bool.and_eq_true, List.isEmpty_iff] at fits
  obtain ⟨⟨-, nothing⟩, -⟩ := fits
  have optional := List.filterMap_eq_nil_iff.mp nothing (name, other) (Table.mem_toList.mpr found)
  have absent : declared.arguments.contains name = false :=
    Bool.eq_false_iff.mpr fun present => Table.get?_eq_none_iff.mp extra (Table.contains_iff.mp present)
  intro none
  simp [absent, nonNull, none] at optional

/-- A field that does not mismatch takes the calls of the interface's field. -/
theorem takesCallsOf_of_compareField : given.TakesCallsOf declared := by
  refine ⟨fun name argument => argument_of_compareField fits, fun supplied accepted => ⟨?_, fun kept => ⟨?_, ?_⟩⟩⟩
  · rintro accepts name ⟨argument, other, -, found, nonNull, -, none⟩
    exact accepts.required name other found nonNull none
  · intro name member
    obtain ⟨argument, known⟩ := Table.exists_get?_of_mem_keys (Table.contains_iff.mp (accepted.known name member))
    obtain ⟨other, found, -⟩ := argument_of_compareField fits known
    exact Table.contains_iff.mpr (Table.mem_keys_of_get? found)
  · intro name other found nonNull none
    cases known : declared.arguments.get? name with
    | none => exact absurd none (default_of_compareField fits known found nonNull)
    | some argument =>
      obtain ⟨_, found', type⟩ := argument_of_compareField fits known
      obtain rfl := Option.some.inj (found.symm.trans found')
      -- The interface asks for the argument as well, or else its default is lost.
      cases optional : argument.default? with
      | none => exact accepted.required name argument known (type ▸ nonNull) optional
      | some value => exact kept name ⟨argument, other, known, found, nonNull, by simp [optional], none⟩

end CompareField

end Implementation

namespace NormalSubgraph

/-- The types that carry the names of scalars of every document are nowhere checked. Those that are objects implement
interfaces only, and those that are unions list objects only. -/
structure ProperSupport (n : NormalSubgraph) : Prop where
  implements : ∀ typeName, n.IsSupportType typeName → ∀ i ∈ n.types.implemented typeName,
    n.types.kind? i = some .interface
  members : ∀ typeName, n.IsSupportType typeName → n.types.kind? typeName = some .union →
    ∀ member ∈ (n.types.listedNames typeName).toList, ∀ kind, n.types.kind? member = some kind → kind = .object

end NormalSubgraph

namespace Assembly

variable {a : Assembly} {past : List Look}

/-- Where nothing is reported of a type, its fields fit those of the interfaces that it implements. -/
theorem compareField_of_listed {typeName interfaceName : String} {entry : TypeEntry} {c : Composite}
    (quiet : a.typeErrors typeName entry = []) (composite : entry.composite? = some c)
    (listed : interfaceName ∈ c.implements.toList) {name : String} {declared : Field}
    (field : a.types.field? interfaceName name = some declared) :
    ∃ given, c.fields.get? name = some given ∧
      (Implementation.compareField a.survey.concrete entry.directives.isInaccessible declared given).isNone = true := by
  obtain ⟨kind, other⟩ := kind?_of_listed quiet composite listed
  obtain ⟨registered, interface, found, shape⟩ : ∃ registered interface,
      a.types.get? interfaceName = some registered ∧ registered.shape = .interface interface := by
    obtain ⟨⟨_, _, _, _, shape⟩, found, kind⟩ := Option.map_eq_some_iff.mp kind
    cases shape with
    | interface c => exact ⟨_, c, found, rfl⟩
    | enum | inputObject | object | scalar | union => exact absurd kind (by simp [TypeEntry.kind, Shape.kind])
  have declares : interface.fields.get? name = some declared := by
    simpa [Registry.field?, Registry.composite?, found, TypeEntry.composite?, shape, Shape.composite?] using field
  -- An interface that is listed is compared with, or it would be reported.
  have target : Implementation.target a.types typeName interfaceName = .interface interface := by
    simp [Implementation.target, found, shape, other]
  have compared : (interfaceName, interface) ∈ Implementation.interfaces a.types typeName c :=
    List.mem_filterMap.mpr ⟨interfaceName, listed, by rw [target]⟩
  rw [typeErrors_of_composite? composite] at quiet
  simp only [compositeErrors, implementationErrors, List.append_eq_nil_iff] at quiet
  obtain ⟨⟨-, -, mismatches⟩, -⟩ := quiet
  have fits := List.filterMap_eq_nil_iff.mp (ite_isEmpty_eq_nil_iff.mp mismatches) _ compared
  dsimp only at fits
  split at fits
  · next same =>
    simp only [InterfaceMismatch.isNone, Implementation.compare, Bool.and_eq_true, List.isEmpty_iff] at same
    obtain ⟨missing, fields⟩ := same
    have present := List.filter_eq_nil_iff.mp missing name (Table.mem_keys_of_get? declares)
    obtain ⟨given, known⟩ := Table.exists_get?_of_mem_keys (Table.contains_iff.mp (by simpa using present))
    have fieldFits := List.filterMap_eq_nil_iff.mp fields (name, declared) (Table.mem_toList.mpr declares)
    simp only [known] at fieldFits
    split at fieldFits
    · next same => exact ⟨given, known, same⟩
    · cases fieldFits
  · cases fits

/-- Where nothing is reported of a union, its members that are registered are objects. -/
theorem object_of_member {typeName member : String} (own : a.isSupportType typeName = false)
    (quiet : ∀ e ∈ a.ownTypes, a.typeErrors e.1 e.2 = []) (union : a.types.kind? typeName = some .union)
    (listed : member ∈ (a.types.listedNames typeName).toList) {kind : TypeKind}
    (registered : a.types.kind? member = some kind) : kind = .object := by
  obtain ⟨⟨_, _, _, _, shape⟩, found, same⟩ := Option.map_eq_some_iff.mp union
  cases shape with
  | union members =>
    have inside : member ∈ members.toList := by simpa [Registry.listedNames, found, Shape.listedNames] using listed
    have nothing := (List.append_eq_nil_iff.mp (quiet _ (mem_ownTypes.mpr ⟨found, own⟩))).2
    have object := List.filterMap_eq_nil_iff.mp (ite_isEmpty_eq_nil_iff.mp nothing) member inside
    simp only [registered] at object
    split at object
    · assumption
    · cases object
  | enum | inputObject | interface | object | scalar => exact absurd same (by simp [TypeEntry.kind, Shape.kind])

/-- What is a concrete type has no concrete types. -/
theorem concrete_of_concrete (coherent : Survey.Coherent a.setting past a.survey)
    (quiet : ∀ e ∈ a.ownTypes, a.typeErrors e.1 e.2 = []) (proper : a.result.ProperSupport) {abstractName name : String}
    (concrete : a.survey.concrete.isConcrete abstractName name = true) (below : String) :
    a.survey.concrete.isConcrete name below = false := by
  have implements : ∀ typeName, ∀ i ∈ a.types.implemented typeName, a.types.kind? i = some .interface := by
    intro typeName i implemented
    cases known : a.isSupportType typeName with
    | true => exact proper.implements typeName (isSupportType_iff.mp known) i implemented
    | false => exact kind?_of_implemented quiet known implemented
  -- Whatever has concrete types is a union or an interface.
  have abstract : a.survey.concrete.isConcrete name below = true →
      a.types.kind? name = some .union ∨ a.types.kind? name = some .interface := fun isConcrete =>
    ((coherent.concrete name below).mp (OrderedSet.contains_iff.mp isConcrete)).imp And.left (implements below name)
  have object : ∀ kind, a.types.kind? name = some kind → kind = .object := by
    intro kind known
    rcases (coherent.concrete abstractName name).mp (OrderedSet.contains_iff.mp concrete) with
      ⟨union, member⟩ | implemented
    · cases outside : a.isSupportType abstractName with
      | true => exact proper.members abstractName (isSupportType_iff.mp outside) union name member kind known
      | false => exact object_of_member outside quiet union member known
    · exact Option.some.inj (known.symm.trans (Survey.mem_implemented.mp implemented).1)
  refine Bool.eq_false_iff.mpr fun isConcrete => ?_
  rcases abstract isConcrete with known | known <;> exact TypeKind.noConfusion (object _ known)

end Assembly

section Normal

variable {options : NormalizationOptions} {statements : List Statement} {n : NormalSubgraph}

/-- In a valid subgraph an object or interface stands in for the interfaces that it implements, if its name is not that
of a scalar of every document. -/
theorem implementation_substitutes (valid : (normalize options statements).result? = some n) {typeName : String}
    (own : ¬ n.IsSupportType typeName) {c : Composite} (composite : n.types.composite? typeName = some c)
    {interfaceName : String} (listed : interfaceName ∈ c.implements.toList) {name : String} {declared : Field}
    (field : n.types.field? interfaceName name = some declared) :
    ∃ given, n.types.field? typeName name = some given ∧ given.TakesCallsOf declared ∧
      (n.ProperSupport → ∀ r, Response.Conforms n.concreteTypes given.type r →
        Response.Conforms n.concreteTypes declared.type r) := by
  obtain ⟨clean, rfl⟩ := result_of_normalize valid
  have v := Assembly.valid_of options.subgraph options.maxOrScopes statements clean
  have q := Assembly.referencesQuiet_of clean
  generalize Assembly.of options.subgraph options.maxOrScopes statements = a at *
  obtain ⟨entry, registered, composite⟩ := Option.bind_eq_some_iff.mp composite
  have outside : a.isSupportType typeName = false := by
    simpa [NormalSubgraph.IsSupportType, Assembly.isSupportType, Assembly.result] using own
  obtain ⟨given, known, fits⟩ := Assembly.compareField_of_listed
    (q.types (typeName, entry) (Assembly.mem_ownTypes.mpr ⟨registered, outside⟩)) composite listed field
  refine ⟨given, ?_, Implementation.takesCallsOf_of_compareField fits, fun proper r conforms => ?_⟩
  · simpa [Registry.field?, Registry.composite?, registered, composite] using known
  -- Concrete types have no concrete types themselves, so no value goes two steps down.
  · refine conforms.widen (fun _ _ _ first second => ?_) (Implementation.narrows_of_compareField fits)
    exact absurd (second.symm.trans (Assembly.concrete_of_concrete v.coherent q.types proper first _)) Bool.noConfusion

end Normal

/-- A type that answers for its interface with more of its own: a narrower type and one more argument that may be left
out. The argument that both have may be left out of the interface's field. -/
def friendlySubgraph (default? : Option Value) : List Statement :=
  let argument (name typeName : String) (nonNull : Bool) (default? : Option Value) : InputValueDefinition :=
    ⟨name, none, .named typeName nonNull, default?, []⟩
  [.define (.type ⟨"Query", none, [], .object [] [⟨"cat", none, [], .named "Cat" false, []⟩]⟩),
    .define (.type ⟨"Animal", none, [], .interface []
      [⟨"friends", none, [argument "first" "Int" true (some (.int 3))], .list (.named "Animal" false) false, []⟩]⟩),
    .define (.type ⟨"Cat", none, [], .object ["Animal"] [⟨"friends", none,
      [argument "first" "Int" true default?, argument "after" "ID" false none], .list (.named "Cat" true) true, []⟩]⟩)]

theorem implementation_substitutes_cat : ∃ n c declared given,
    (normalize .default (friendlySubgraph (some (.int 3)))).result? = some n ∧ ¬ n.IsSupportType "Cat" ∧
      n.types.composite? "Cat" = some c ∧ "Animal" ∈ c.implements.toList ∧
      n.types.field? "Animal" "friends" = some declared ∧ n.types.field? "Cat" "friends" = some given ∧
      n.ProperSupport ∧ given.TakesCallsOf declared ∧
      ∀ r, Response.Conforms n.concreteTypes given.type r → Response.Conforms n.concreteTypes declared.type r := by
  have accepted : (normalize .default (friendlySubgraph (some (.int 3)))).result?.any (fun n =>
      (n.types.composite? "Cat").any (fun c => "Animal" ∈ c.implements.toList) &&
        (n.types.field? "Animal" "friends").isSome &&
          [Vocabulary.fieldSetScalar, Vocabulary.scopeScalar].all fun typeName => n.types.kind? typeName = none) =
      true := by
    decide +kernel
  simp only [Option.any_eq_true, Bool.and_eq_true, decide_eq_true_eq, Option.isSome_iff_exists, List.all_eq_true]
    at accepted
  obtain ⟨n, valid, ⟨⟨c, composite, listed⟩, declared, field⟩, unregistered⟩ := accepted
  have other : ∀ typeName, n.IsSupportType typeName → n.types.kind? typeName = none := by
    rintro typeName (rfl | ⟨-, rfl⟩)
    · exact unregistered _ List.mem_cons_self
    · exact unregistered _ (List.mem_cons_of_mem _ List.mem_cons_self)
  have own : ¬ n.IsSupportType "Cat" := fun support => by
    rcases support with same | ⟨-, same⟩ <;> exact absurd same (by decide)
  have proper : n.ProperSupport := by
    refine ⟨fun typeName support i implemented => ?_, fun typeName support union => ?_⟩
    · have known := (Survey.mem_implemented.mp implemented).1
      exact absurd (known.symm.trans (other typeName support)) (Option.some_ne_none _)
    · exact absurd (union.symm.trans (other typeName support)) (Option.some_ne_none _)
  obtain ⟨given, known, takes, widens⟩ := implementation_substitutes valid own composite listed field
  exact ⟨n, c, declared, given, valid, own, composite, listed, field, known, proper, takes, widens proper⟩

/-- A subgraph of the second version with an object and a union that carry the names of scalars of every document. -/
def uncheckedSubgraph : List Statement :=
  let field (name typeName : String) : FieldDefinition := ⟨name, none, [], .named typeName false, []⟩
  [.define (.type ⟨"Query", none, [⟨Vocabulary.shareable, []⟩], .object [] [field "x" "Int"]⟩),
    .define (.type ⟨"I", none, [], .interface [] [field "f" "A", field "g" Vocabulary.scopeScalar]⟩),
    .define (.type ⟨"A", none, [], .union ["B"]⟩),
    .define (.type ⟨"B", none, [], .object [] [field "x" "Int"]⟩),
    .define (.type ⟨"J", none, [], .interface [] [field "x" "Int"]⟩),
    .define (.type ⟨"N", none, [], .object ["J"] [field "x" "Int"]⟩),
    .define (.type ⟨Vocabulary.scopeScalar, none, [], .union ["J"]⟩),
    .define (.type ⟨"T", none, [], .object ["I"] [field "f" "B", field "g" "J"]⟩),
    .define (.type ⟨Vocabulary.fieldSetScalar, none, [], .object ["B", "I"] [field "x" "Int"]⟩)]

/-- A call may rely on a default that only the interface has. Where scalars of every document are defined as something
else, an object of their name may lack the fields of its interfaces, and values may break the promise of an interface
that they keep for its implementation. -/
theorem implementation_falls_short :
    (∃ n c declared given, (normalize .default (friendlySubgraph none)).result? = some n ∧
      n.types.composite? "Cat" = some c ∧ "Animal" ∈ c.implements.toList ∧
      n.types.field? "Animal" "friends" = some declared ∧ n.types.field? "Cat" "friends" = some given ∧
      declared.Accepts [] ∧ ¬ given.Accepts []) ∧
    ∃ n c c', (normalize .default uncheckedSubgraph).result? = some n ∧
      n.types.composite? Vocabulary.fieldSetScalar = some c ∧ "I" ∈ c.implements.toList ∧
      (n.types.field? "I" "f").isSome = true ∧ n.types.field? Vocabulary.fieldSetScalar "f" = none ∧
      n.types.composite? "T" = some c' ∧ "I" ∈ c'.implements.toList ∧
      ∀ name ∈ ["f", "g"], ∃ declared given r, n.types.field? "I" name = some declared ∧
        n.types.field? "T" name = some given ∧ Response.Conforms n.concreteTypes given.type r ∧
        ¬ Response.Conforms n.concreteTypes declared.type r := by
  have missed : (normalize .default (friendlySubgraph none)).result?.any (fun n =>
      (n.types.composite? "Cat").any (fun c => "Animal" ∈ c.implements.toList) &&
        (n.types.field? "Animal" "friends").any (fun declared => declared.Accepts []) &&
          (n.types.field? "Cat" "friends").any fun given => ¬ given.Accepts []) = true := by
    decide +kernel
  have broken : (normalize .default uncheckedSubgraph).result?.any (fun n =>
      (n.types.composite? Vocabulary.fieldSetScalar).any (fun c => "I" ∈ c.implements.toList) &&
        (n.types.field? "I" "f").isSome && (n.types.field? Vocabulary.fieldSetScalar "f").isNone &&
          (n.types.composite? "T").any (fun c => "I" ∈ c.implements.toList) &&
            [("f", Vocabulary.fieldSetScalar), ("g", "N")].all fun e =>
              (n.types.field? "I" e.1).any fun declared => (n.types.field? "T" e.1).any fun given =>
                Response.Conforms n.concreteTypes given.type (.value e.2) &&
                  ¬ Response.Conforms n.concreteTypes declared.type (.value e.2)) = true := by
    decide +kernel
  simp only [Option.any_eq_true, Bool.and_eq_true, decide_eq_true_eq] at missed
  constructor
  · obtain ⟨n, valid, ⟨⟨c, composite, listed⟩, declared, field, accepts⟩, given, known, refuses⟩ := missed
    exact ⟨n, c, declared, given, valid, composite, listed, field, known, accepts, refuses⟩
  · simp only [Option.any_eq_true, Bool.and_eq_true, decide_eq_true_eq, List.all_eq_true, Option.isNone_iff_eq_none]
      at broken
    obtain ⟨n, valid, ⟨⟨⟨⟨c, composite, listed⟩, field⟩, missing⟩, c', composite', listed'⟩, breaks⟩ := broken
    refine ⟨n, c, c', valid, composite, listed, field, missing, composite', listed', fun name member => ?_⟩
    obtain ⟨typeName, chosen⟩ : ∃ typeName, (name, typeName) ∈ [("f", Vocabulary.fieldSetScalar), ("g", "N")] := by
      simp only [List.mem_cons, List.not_mem_nil, or_false] at member
      rcases member with rfl | rfl
      · exact ⟨_, List.mem_cons_self⟩
      · exact ⟨_, List.mem_cons_of_mem _ List.mem_cons_self⟩
    obtain ⟨declared, field, given, known, keeps, fails⟩ := breaks _ chosen
    exact ⟨declared, given, .value typeName, field, known, keeps, fails⟩

end Federation
