import Federation.Proofs.Implementation.Response

/-!
# Narrowing as an order of promises

A type narrows another just where every response that keeps its promise keeps the promise of the other, given that
what is listed as a concrete type has no concrete types itself. So narrowing is reflexive and transitive. Peeling the
wrappers of two types one by one comes to the same, and is such an order even where null is ruled out more than once.
-/

namespace Federation

open Schema

/-- Whether no type that is concrete for another has concrete types of its own. -/
def ConcreteTypes.IsFlat (concrete : ConcreteTypes) : Prop :=
  ∀ e ∈ Table.toList concrete, ∀ name ∈ e.2.toList, name ∉ Table.keys concrete

instance (concrete : ConcreteTypes) : Decidable concrete.IsFlat :=
  inferInstanceAs (Decidable (∀ e ∈ Table.toList concrete, ∀ name ∈ e.2.toList, name ∉ Table.keys concrete))

/-- A type with a concrete type is listed, and that one with it. -/
theorem ConcreteTypes.exists_of_isConcrete {concrete : ConcreteTypes} {abstractName name : String}
    (below : concrete.isConcrete abstractName name = true) :
    ∃ names, (abstractName, names) ∈ Table.toList concrete ∧ name ∈ names.toList := by
  have listed := OrderedSet.contains_iff.mp below
  unfold of Table.getD at listed
  cases found : Table.get? concrete abstractName with
  | none =>
    rw [found] at listed
    exact absurd listed List.not_mem_nil
  | some names =>
    rw [found] at listed
    exact ⟨names, Table.mem_toList.mpr found, listed⟩

/-- Flat tables have no chains of concrete types, so that there is nothing to join. -/
theorem ConcreteTypes.IsFlat.isConcrete_trans {concrete : ConcreteTypes} (flat : concrete.IsFlat) (a b c : String)
    (first : concrete.isConcrete a b = true) (second : concrete.isConcrete b c = true) :
    concrete.isConcrete a c = true := by
  obtain ⟨names, listed, member⟩ := exists_of_isConcrete first
  obtain ⟨others, abstract, -⟩ := exists_of_isConcrete second
  exact absurd (List.mem_map_of_mem abstract) (flat _ listed b member)

/-! ## Wrappers -/

namespace Schema

/-- A type that is built up from its name, wrapper by wrapper. -/
inductive Wrapped
  | named (name : String)
  | list (item : Wrapped)
  | nonNull (type : Wrapped)
  deriving DecidableEq

/-- The wrappers of a type. -/
def TypeRef.wrapped : TypeRef → Wrapped
  | named name false => .named name
  | named name true => .nonNull (.named name)
  | list item false => .list item.wrapped
  | list item true => .nonNull (.list item.wrapped)

namespace Wrapped

/-- Whether a type may implement another. Wrappers are peeled off both, but one that rules out null may stand around
the implementing type alone. -/
def narrows (isConcrete : String → String → Bool) : (declared given : Wrapped) → Bool
  | nonNull declared, nonNull given => narrows isConcrete declared given
  | nonNull _, _ => false
  | declared, nonNull given => narrows isConcrete declared given
  | named declared, named given => declared = given || isConcrete declared given
  | list declared, list given => narrows isConcrete declared given
  | _, _ => false

/-- Whether a response keeps what a type promises. -/
def Conforms (concrete : ConcreteTypes) : Wrapped → Response → Prop
  | nonNull type, r => r ≠ .null ∧ Conforms concrete type r
  | named _, .null | list _, .null => True
  | list item, .list items => ∀ r ∈ items, Conforms concrete item r
  | named name, .value typeName => name = typeName ∨ concrete.isConcrete name typeName = true
  | named _, .list _ | list _, .value _ => False

variable {isConcrete : String → String → Bool} {concrete : ConcreteTypes}

theorem narrows_refl (t : Wrapped) : t.narrows isConcrete t = true := by
  induction t with
  | named name => simp [narrows]
  | list item ih => exact ih
  | nonNull type ih => exact ih

theorem narrows_trans (transitive : ∀ a b c, isConcrete a b = true → isConcrete b c = true → isConcrete a c = true)
    {a b c : Wrapped} (first : a.narrows isConcrete b = true) (second : b.narrows isConcrete c = true) :
    a.narrows isConcrete c = true := by
  -- The last type has at least the wrappers that rule out null of the other two, so the induction is on that one.
  induction c generalizing a b with
  | nonNull c ih =>
    cases b with
    | nonNull b =>
      cases a with
      | nonNull a => exact ih first second
      -- Both wrappers rule out null, where the first type does not.
      | named base => exact ih (a := .named base) (b := b) first second
      | list base => exact ih (a := .list base) (b := b) first second
    | named | list =>
      cases a with
      | nonNull => exact absurd first Bool.false_ne_true
      | named | list => exact ih first second
  | named name =>
    cases b with
    | named other =>
      cases a with
      | named base =>
        simp only [narrows, Bool.or_eq_true, decide_eq_true_eq] at first second ⊢
        rcases first with rfl | above
        · exact second
        · rcases second with rfl | below
          · exact .inr above
          · exact .inr (transitive base other name above below)
      | list | nonNull => exact absurd first Bool.false_ne_true
    | list | nonNull => exact absurd second Bool.false_ne_true
  | list item ih =>
    cases b with
    | list other =>
      cases a with
      | list base => exact ih first second
      | named | nonNull => exact absurd first Bool.false_ne_true
    | named | nonNull => exact absurd second Bool.false_ne_true

/-- Whatever keeps the promise of a narrower type keeps that of the wider one. -/
theorem Conforms.widen (transitive : ∀ a b c, concrete.isConcrete a b = true → concrete.isConcrete b c = true →
      concrete.isConcrete a c = true)
    {declared given : Wrapped} (narrower : declared.narrows concrete.isConcrete given = true) {r : Response}
    (conforms : Conforms concrete given r) : Conforms concrete declared r := by
  -- The response is peeled along with the narrower type: a wrapper of it alone only says that there is a value.
  induction given generalizing declared r with
  | nonNull given ih =>
    obtain ⟨present, inside⟩ := conforms
    cases declared with
    | nonNull declared => exact ⟨present, ih narrower inside⟩
    | named name =>
      have narrower : (named name).narrows concrete.isConcrete given = true := narrower
      exact ih narrower inside
    | list item =>
      have narrower : (list item).narrows concrete.isConcrete given = true := narrower
      exact ih narrower inside
  | named other =>
    cases declared with
    | named name =>
      cases r with
      | null => trivial
      | list => exact conforms.elim
      | value typeName =>
        obtain rfl | above : name = other ∨ concrete.isConcrete name other = true := by
          simpa [narrows] using narrower
        · exact conforms
        · rcases conforms with rfl | below
          · exact .inr above
          · exact .inr (transitive name other typeName above below)
    | list | nonNull => exact absurd narrower Bool.false_ne_true
  | list given ih =>
    cases declared with
    | list item =>
      cases r with
      | null => trivial
      | list items => exact fun r member => ih narrower (conforms r member)
      | value => exact conforms.elim
    | named | nonNull => exact absurd narrower Bool.false_ne_true

end Wrapped

/-! ## Types of a schema -/

namespace TypeRef

variable {isConcrete : String → String → Bool} {concrete : ConcreteTypes}

/-- Peeling wrappers is no other check. -/
theorem narrows_wrapped (declared given : TypeRef) :
    declared.wrapped.narrows isConcrete given.wrapped = declared.narrows isConcrete given := by
  induction declared generalizing given with
  | named name nonNull =>
    cases given with
    | named other nonNull' => cases nonNull <;> cases nonNull' <;> simp [wrapped, Wrapped.narrows, narrows]
    | list item nonNull' => cases nonNull <;> cases nonNull' <;> simp [wrapped, Wrapped.narrows, narrows]
  | list item nonNull ih =>
    cases given with
    | named other nonNull' => cases nonNull <;> cases nonNull' <;> simp [wrapped, Wrapped.narrows, narrows]
    | list other nonNull' => cases nonNull <;> cases nonNull' <;> simp [wrapped, Wrapped.narrows, narrows, ih]

theorem conforms_wrapped (t : TypeRef) (r : Response) :
    t.wrapped.Conforms concrete r ↔ Response.Conforms concrete t r := by
  induction t generalizing r with
  | named name nonNull => cases nonNull <;> cases r <;> simp [wrapped, Wrapped.Conforms, Response.Conforms]
  | list item nonNull ih => cases nonNull <;> cases r <;> simp [wrapped, Wrapped.Conforms, Response.Conforms, ih]

/-- A type narrows another if every response that keeps its promise keeps that of the other. Null, a value of the named
type, the empty list and lists of one item tell types apart. -/
theorem narrows_of_conforms {declared given : TypeRef}
    (keeps : ∀ r, Response.Conforms concrete given r → Response.Conforms concrete declared r) :
    declared.narrows concrete.isConcrete given = true := by
  induction declared generalizing given with
  | named name nonNull =>
    cases given with
    | named other nonNull' =>
      have absent : nonNull' = false → nonNull = false := keeps .null
      have same : name = other ∨ concrete.isConcrete name other = true := keeps (.value other) (.inl rfl)
      cases nonNull <;> cases nonNull' <;> simp_all [narrows]
    | list other nonNull' => exact (keeps (.list []) (List.forall_mem_nil _)).elim
  | list item nonNull ih =>
    cases given with
    | named other nonNull' => exact (keeps (.value other) (.inl rfl)).elim
    | list other nonNull' =>
      have absent : nonNull' = false → nonNull = false := keeps .null
      -- Whatever keeps the promise of the items does so as the one item of a list.
      have items : item.narrows concrete.isConcrete other = true := ih fun r conforms =>
        keeps (.list [r]) (List.forall_mem_singleton.mpr conforms) r List.mem_cons_self
      cases nonNull <;> cases nonNull' <;> simp_all [narrows]

end TypeRef

end Schema

/-- Whatever keeps the promise of a narrower type keeps that of the wider one. -/
theorem Response.Conforms.widen {concrete : ConcreteTypes}
    (transitive : ∀ a b c, concrete.isConcrete a b = true → concrete.isConcrete b c = true →
      concrete.isConcrete a c = true)
    {declared given : TypeRef} (narrower : declared.narrows concrete.isConcrete given = true) {r : Response}
    (conforms : Conforms concrete given r) : Conforms concrete declared r := by
  rw [← TypeRef.narrows_wrapped] at narrower
  rw [← TypeRef.conforms_wrapped] at conforms ⊢
  exact conforms.widen transitive narrower

/-- Whether a check of types is an order under which promises are kept. -/
structure OrdersPromises {α : Type} (narrows : α → α → Bool) (Conforms : α → Response → Prop) : Prop where
  refl : ∀ t, narrows t t = true
  trans : ∀ a b c, narrows a b = true → narrows b c = true → narrows a c = true
  widen : ∀ declared given, narrows declared given = true → ∀ r, Conforms given r → Conforms declared r

/-- Where no concrete type has concrete types itself, narrowing is the order of promises: a type narrows another just
where it promises at least as much. So it is for the wrappers of types, to which narrowing comes down, and these are
ordered soundly even if null is ruled out more than once. -/
theorem narrows_orders_promises {concrete : ConcreteTypes} (flat : concrete.IsFlat) :
    OrdersPromises (TypeRef.narrows concrete.isConcrete) (Response.Conforms concrete) ∧
    (∀ declared given : TypeRef, declared.narrows concrete.isConcrete given = true ↔
      ∀ r, Response.Conforms concrete given r → Response.Conforms concrete declared r) ∧
    OrdersPromises (Wrapped.narrows concrete.isConcrete) (Wrapped.Conforms concrete) ∧
    (∀ declared given : TypeRef, declared.narrows concrete.isConcrete given =
      declared.wrapped.narrows concrete.isConcrete given.wrapped) ∧
    ∀ (t : TypeRef) r, Response.Conforms concrete t r ↔ t.wrapped.Conforms concrete r := by
  have exact (declared given : TypeRef) : declared.narrows concrete.isConcrete given = true ↔
      ∀ r, Response.Conforms concrete given r → Response.Conforms concrete declared r :=
    ⟨fun narrower _ => Response.Conforms.widen flat.isConcrete_trans narrower, TypeRef.narrows_of_conforms⟩
  refine ⟨⟨fun t => ?_, fun a b c first second => ?_, fun declared given => (exact declared given).mp⟩, exact,
    ⟨Wrapped.narrows_refl, fun a b c => Wrapped.narrows_trans flat.isConcrete_trans, fun _ _ narrower _ =>
      Wrapped.Conforms.widen flat.isConcrete_trans narrower⟩, fun declared given =>
    (TypeRef.narrows_wrapped declared given).symm, fun t r => (TypeRef.conforms_wrapped t r).symm⟩
  · exact (exact t t).mpr fun _ => id
  · exact (exact a c).mpr fun r conforms => (exact a b).mp first r ((exact b c).mp second r conforms)

/-- One interface with one implementation. -/
def animals : ConcreteTypes := .ofList [("Animal", .ofList ["Dog"])]

/-- A list without gaps of dogs is a list of animals. The other way round the promise is not kept. -/
theorem narrows_orders_promises_animals : animals.IsFlat ∧
    (∀ r, Response.Conforms animals (.list (.named "Dog" true) true) r →
      Response.Conforms animals (.list (.named "Animal" false) false) r) ∧
    ¬ ∀ r, Response.Conforms animals (.list (.named "Animal" false) false) r →
      Response.Conforms animals (.list (.named "Dog" true) true) r := by
  have flat : animals.IsFlat := by decide
  obtain ⟨-, exact, -⟩ := narrows_orders_promises flat
  exact ⟨flat, (exact _ _).mp (by decide), fun keeps => absurd ((exact _ _).mpr keeps) (by decide)⟩

/-- Through a chain of concrete types narrowing does not reach. -/
example : let isConcrete := ConcreteTypes.isConcrete (.ofList [("A", .ofList ["B"]), ("B", .ofList ["C"])])
    TypeRef.narrows isConcrete (.named "A" false) (.named "B" false) = true ∧
      TypeRef.narrows isConcrete (.named "B" false) (.named "C" false) = true ∧
      TypeRef.narrows isConcrete (.named "A" false) (.named "C" false) = false := by
  decide

end Federation
