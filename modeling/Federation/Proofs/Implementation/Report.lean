import Federation.Proofs.Document.Legible
import Federation.Proofs.Grammar.Constant
import Federation.Proofs.Grammar.Yield

/-!
# Reports of implementations

What the report about a type says of the interfaces that it implements: one entry for each interface that the type
breaks, and in it one item for each way in which it does. An entry depends on one interface and the type, and what it
says of a field on the two declarations of that field.
-/

namespace Federation

open Schema

/-! ## Lists of what a property asks for -/

section Lists

variable {α β κ : Type}

/-- A list holds exactly the items with a property, in the order of their names, with no name twice if the names are
distinct. -/
structure Lists (names : List κ) (name : α → κ) (wanted : α → Prop) (items : List α) : Prop where
  mem : ∀ x, x ∈ items ↔ wanted x
  order : (items.map name).Sublist names

variable {names : List κ} {name : α → κ} {wanted : α → Prop} {items items' : List α}

theorem Lists.congr {other : α → Prop} (lists : Lists names name wanted items) (same : ∀ x, wanted x ↔ other x) :
    Lists names name other items :=
  ⟨fun x => (lists.mem x).trans (same x), lists.order⟩

theorem Lists.trans {more : List κ} (lists : Lists names name wanted items) (among : names.Sublist more) :
    Lists more name wanted items :=
  ⟨lists.mem, lists.order.trans among⟩

/-- There is an item exactly if the list is not empty. -/
theorem Lists.ne_nil_iff (lists : Lists names name wanted items) : items ≠ [] ↔ ∃ x, wanted x := by
  simp only [List.ne_nil_iff_exists_cons, ← lists.mem]
  constructor
  · rintro ⟨x, rest, rfl⟩
    exact ⟨x, List.mem_cons_self⟩
  · rintro ⟨x, member⟩
    cases items with
    | nil => exact absurd member List.not_mem_nil
    | cons first rest => exact ⟨first, rest, rfl⟩

private theorem eq_of_order (nodup : names.Nodup) (order : (items.map name).Sublist names)
    (order' : (items'.map name).Sublist names) (same : ∀ x, x ∈ items ↔ x ∈ items') : items = items' := by
  induction names generalizing items items' with
  | nil =>
    rw [List.map_eq_nil_iff.mp (List.sublist_nil.mp order), List.map_eq_nil_iff.mp (List.sublist_nil.mp order')]
  | cons first rest ih =>
    obtain ⟨fresh, nodup⟩ := List.nodup_cons.mp nodup
    -- A list that leaves out the first name has no item of that name.
    have skips : ∀ {xs : List α}, (xs.map name).Sublist rest → ∀ x ∈ xs, name x ≠ first := by
      intro xs among x member equal
      exact fresh (equal ▸ among.mem (List.mem_map_of_mem member))
    rcases List.sublist_cons_iff.mp order with skip | ⟨tail, split, inner⟩ <;>
      rcases List.sublist_cons_iff.mp order' with skip' | ⟨tail', split', inner'⟩
    · exact ih nodup skip skip' same
    · obtain ⟨x, xs, rfl, named, rfl⟩ := List.map_eq_cons_iff.mp split'
      exact absurd named (skips skip x ((same x).mpr List.mem_cons_self))
    · obtain ⟨x, xs, rfl, named, rfl⟩ := List.map_eq_cons_iff.mp split
      exact absurd named (skips skip' x ((same x).mp List.mem_cons_self))
    · obtain ⟨x, xs, rfl, named, rfl⟩ := List.map_eq_cons_iff.mp split
      obtain ⟨x', xs', rfl, named', rfl⟩ := List.map_eq_cons_iff.mp split'
      obtain rfl : x = x' := by
        rcases List.mem_cons.mp ((same x).mp List.mem_cons_self) with equal | later
        · exact equal
        · exact absurd named (skips inner' x later)
      rw [ih nodup inner inner' fun y => ?_]
      constructor
      · intro member
        exact (List.mem_cons.mp ((same y).mp (List.mem_cons_of_mem _ member))).resolve_left fun equal =>
          skips inner y member (equal ▸ named)
      · intro member
        exact (List.mem_cons.mp ((same y).mpr (List.mem_cons_of_mem _ member))).resolve_left fun equal =>
          skips inner' y member (equal ▸ named)

/-- Where names are distinct, there is one such list. -/
theorem Lists.unique (nodup : names.Nodup) (lists : Lists names name wanted items)
    (lists' : Lists names name wanted items') : items = items' :=
  eq_of_order nodup lists.order lists'.order fun x => (lists.mem x).trans (lists'.mem x).symm

/-- What is made of the items of a list under their names is listed in their order. -/
theorem lists_filterMap (name : α → κ) (source : List β) (origin : β → κ) {make : β → Option α}
    (keeps : ∀ e x, make e = some x → name x = origin e) :
    Lists (source.map origin) name (fun x => ∃ e ∈ source, make e = some x) (source.filterMap make) where
  mem x := List.mem_filterMap
  order := by
    induction source with
    | nil => exact List.Sublist.slnil
    | cons e rest ih =>
      cases made : make e with
      | none => simpa [List.filterMap_cons, made] using ih.cons (origin e)
      | some x => simpa [List.filterMap_cons, made, keeps e x made] using ih

theorem lists_filter (source : List κ) (keep : κ → Bool) :
    Lists source id (fun x => x ∈ source ∧ keep x = true) (source.filter keep) where
  mem x := List.mem_filter
  order := by
    rw [List.map_id]
    exact List.filter_sublist

theorem Table.lists_filterMap [DecidableEq κ] (name : α → κ) (t : Table κ β) {make : κ × β → Option α}
    (keeps : ∀ e x, make e = some x → name x = e.1) :
    Lists t.keys name (fun x => ∃ v, t.get? (name x) = some v ∧ make (name x, v) = some x)
      (t.toList.filterMap make) := by
  refine (Federation.lists_filterMap name t.toList Prod.fst keeps).congr fun x => ⟨?_, ?_⟩
  · rintro ⟨⟨k, v⟩, member, made⟩
    obtain rfl : name x = k := keeps _ _ made
    exact ⟨v, Table.mem_toList.mp member, made⟩
  · rintro ⟨v, found, made⟩
    exact ⟨(name x, v), Table.mem_toList.mpr found, made⟩

end Lists

/-! ## Types -/

namespace Schema.TypeRef

/-- How a type may be narrowed: a name is replaced by that of a concrete type, the items of a list are narrowed, or
null is ruled out. -/
inductive Narrows (isConcrete : String → String → Bool) : (declared given : TypeRef) → Prop
  | name (name : String) (nonNull : Bool) : Narrows isConcrete (named name nonNull) (named name nonNull)
  | concrete {name concreteName : String} (nonNull : Bool) (below : isConcrete name concreteName = true) :
      Narrows isConcrete (named name nonNull) (named concreteName nonNull)
  | items {declared given : TypeRef} (nonNull : Bool) (items : Narrows isConcrete declared given) :
      Narrows isConcrete (list declared nonNull) (list given nonNull)
  | required {declared given : TypeRef} (narrower : Narrows isConcrete declared given) :
      Narrows isConcrete declared given.required

variable {isConcrete : String → String → Bool}

theorem narrows_required {declared given : TypeRef} (narrower : declared.narrows isConcrete given = true) :
    declared.narrows isConcrete given.required = true := by
  cases declared <;> cases given <;> simp_all [narrows, required]

/-- Null is kept or ruled out, and never let in. -/
private theorem Narrows.tightened {declared : TypeRef} (given : Bool → TypeRef) {declaredNonNull nonNull : Bool}
    (tight : (!declaredNonNull || nonNull) = true) (required : (given declaredNonNull).required = given true)
    (narrower : Narrows isConcrete declared (given declaredNonNull)) : Narrows isConcrete declared (given nonNull) := by
  cases declaredNonNull <;> cases nonNull
  · exact narrower
  · exact required ▸ narrower.required
  · cases tight
  · exact narrower

theorem narrows_iff {declared given : TypeRef} :
    declared.narrows isConcrete given = true ↔ Narrows isConcrete declared given := by
  constructor
  · intro narrower
    -- Names and items are narrowed first, and null is ruled out last, at every depth anew.
    induction declared generalizing given with
    | named name nonNull =>
      cases given with
      | list => cases narrower
      | named other nonNull' =>
        obtain ⟨tight, names⟩ := Bool.and_eq_true_iff.mp narrower
        refine Narrows.tightened (named other) tight rfl ?_
        rcases Bool.or_eq_true_iff.mp names with equal | concrete
        · obtain rfl : name = other := by simpa using equal
          exact .name name nonNull
        · exact .concrete nonNull concrete
    | list item nonNull ih =>
      cases given with
      | named => cases narrower
      | list other nonNull' =>
        obtain ⟨tight, items⟩ := Bool.and_eq_true_iff.mp narrower
        exact Narrows.tightened (list other) tight rfl (.items nonNull (ih items))
  · intro narrower
    induction narrower with
    | name name nonNull => simp [narrows]
    | concrete nonNull below => simp [narrows, below]
    | items nonNull _ ih => simp [narrows, ih]
    | required _ ih => exact narrows_required ih

/-- Types with names of the grammar are told apart by their written form. -/
theorem text_injOn : Set.InjOn text {t | t.isLegible = true} := by
  have back : ∀ t : TypeRef, t.isLegible = true → Grammar.Reader.read? Grammar.Reader.typeRef t.text = some t := by
    intro t legible
    have read : Grammar.Reader.typeRef (t.tokens ++ []) = some (t, []) := Grammar.Reader.typeRef_tokens t (by simp)
    rw [List.append_nil] at read
    exact Grammar.Reader.read?_of_scan (spells_text legible).scan_eq read
  exact Grammar.Reader.injOn_of_read? back

end Schema.TypeRef

/-! ## Fields -/

section Reports

variable (concrete : ConcreteTypes) (isInaccessible : Bool)

/-- A way in which a field fails the interface's field of its name, on a type that is inaccessible or not. -/
inductive Field.Breaks (declared given : Field) : Prop
  | type (wider : ¬ TypeRef.Narrows concrete.isConcrete declared.type given.type)
  | missing (name : String) (asked : name ∈ declared.arguments.keys) (absent : name ∉ given.arguments.keys)
  | mismatched (name : String) (argument other : InputValue) (asked : declared.arguments.get? name = some argument)
      (found : given.arguments.get? name = some other) (differs : argument.type ≠ other.type)
  | extra (name : String) (argument : InputValue) (unasked : name ∉ declared.arguments.keys)
      (found : given.arguments.get? name = some argument) (nonNull : argument.type.isNonNull = true)
      (bare : argument.default? = none)
  | inaccessible (hidden : given.directives.isInaccessible = true)
      (shown : declared.directives.isInaccessible = false) (parent : isInaccessible = false)

/-- What is said of a field that has a counterpart in the interface. -/
structure FieldMismatch.Reports (declared given : Field) (m : FieldMismatch) : Prop where
  declaredType : m.declaredType = declared.type.text
  invalidType : ∀ text, m.invalidType = some text ↔
    ¬ TypeRef.Narrows concrete.isConcrete declared.type given.type ∧ text = given.type.text
  missing : Lists declared.arguments.keys id
    (fun name => name ∈ declared.arguments.keys ∧ name ∉ given.arguments.keys) m.missingArguments
  mismatched : Lists declared.arguments.keys ArgumentMismatch.argument
    (fun x => ∃ argument other, declared.arguments.get? x.argument = some argument ∧
      given.arguments.get? x.argument = some other ∧ argument.type ≠ other.type ∧
        x.expected = argument.type.text ∧ x.actual = other.type.text) m.mismatchedArguments
  extra : Lists given.arguments.keys id
    (fun name => name ∉ declared.arguments.keys ∧ ∃ argument, given.arguments.get? name = some argument ∧
      argument.type.isNonNull = true ∧ argument.default? = none) m.extraArguments
  inaccessible : m.isInaccessible = true ↔ given.directives.isInaccessible = true ∧
    declared.directives.isInaccessible = false ∧ isInaccessible = false

variable {concrete isInaccessible} {declared given : Field} {m m' : FieldMismatch}

/-- A report of nothing is one about fields that fit. -/
theorem FieldMismatch.Reports.isNone_eq_false_iff (reports : m.Reports concrete isInaccessible declared given) :
    m.isNone = false ↔ Field.Breaks concrete isInaccessible declared given := by
  have some : m.isNone = false ↔ m.invalidType.isSome = true ∨ m.missingArguments ≠ [] ∨
      m.mismatchedArguments ≠ [] ∨ m.extraArguments ≠ [] ∨ m.isInaccessible = true := by
    simp only [FieldMismatch.isNone, Bool.and_eq_false_iff, Bool.not_eq_false', List.isEmpty_eq_false_iff,
      Option.isNone_eq_false_iff, or_assoc]
  rw [some, reports.missing.ne_nil_iff, reports.mismatched.ne_nil_iff, reports.extra.ne_nil_iff,
    reports.inaccessible, Option.isSome_iff_exists]
  simp only [reports.invalidType]
  constructor
  · rintro (⟨_, wider, -⟩ | ⟨name, asked, absent⟩ | ⟨x, argument, other, asked, found, differs, -⟩ |
      ⟨name, unasked, argument, found, nonNull, bare⟩ | ⟨hidden, shown, parent⟩)
    · exact .type wider
    · exact .missing name asked absent
    · exact .mismatched x.argument argument other asked found differs
    · exact .extra name argument unasked found nonNull bare
    · exact .inaccessible hidden shown parent
  · rintro (wider | ⟨name, asked, absent⟩ | ⟨name, argument, other, asked, found, differs⟩ |
      ⟨name, argument, unasked, found, nonNull, bare⟩ | ⟨hidden, shown, parent⟩)
    · exact .inl ⟨_, wider, rfl⟩
    · exact .inr (.inl ⟨name, asked, absent⟩)
    · exact .inr (.inr (.inl ⟨⟨name, _, _⟩, argument, other, asked, found, differs, rfl, rfl⟩))
    · exact .inr (.inr (.inr (.inl ⟨name, unasked, argument, found, nonNull, bare⟩)))
    · exact .inr (.inr (.inr (.inr ⟨hidden, shown, parent⟩)))

theorem FieldMismatch.Reports.unique (reports : m.Reports concrete isInaccessible declared given)
    (reports' : m'.Reports concrete isInaccessible declared given) : m = m' := by
  have declaredType := reports.declaredType.trans reports'.declaredType.symm
  have invalidType : m.invalidType = m'.invalidType :=
    Option.ext fun text => (reports.invalidType text).trans (reports'.invalidType text).symm
  have missing := reports.missing.unique declared.arguments.nodup_keys reports'.missing
  have mismatched := reports.mismatched.unique declared.arguments.nodup_keys reports'.mismatched
  have extra := reports.extra.unique given.arguments.nodup_keys reports'.extra
  have inaccessible : m.isInaccessible = m'.isInaccessible :=
    Bool.eq_iff_iff.mpr (reports.inaccessible.trans reports'.inaccessible.symm)
  cases m
  cases m'
  simp_all

namespace Implementation

private theorem mismatch_eq_some_iff (given : Field) {name : String} {argument : InputValue} {x : ArgumentMismatch} :
    (match given.arguments.get? name with
      | none => none
      | some other =>
        if argument.type = other.type then none
        else some (⟨name, argument.type.text, other.type.text⟩ : ArgumentMismatch)) = some x ↔
      ∃ other, given.arguments.get? name = some other ∧ argument.type ≠ other.type ∧
        x = ⟨name, argument.type.text, other.type.text⟩ := by
  cases given.arguments.get? name with
  | none => simp
  | some other =>
    simp only [Option.some.injEq, exists_eq_left', Option.ite_none_left_eq_some, ne_eq]
    exact and_congr_right fun _ => eq_comm

private theorem extra_eq_some_iff (declared : Field) {name name' : String} {argument : InputValue} :
    (if !declared.arguments.contains name && argument.type.isNonNull && argument.default?.isNone then some name
      else none) = some name' ↔
      name' = name ∧ name ∉ declared.arguments.keys ∧ argument.type.isNonNull = true ∧ argument.default? = none := by
  rw [Option.ite_none_right_eq_some, Bool.and_eq_true, Bool.and_eq_true, Bool.not_eq_true',
    ← Bool.not_eq_true, Table.contains_iff, Option.isNone_iff_eq_none, Option.some_inj, and_assoc]
  exact ⟨fun ⟨⟨unasked, nonNull⟩, bare, same⟩ => ⟨same.symm, unasked, nonNull, bare⟩,
    fun ⟨same, unasked, nonNull, bare⟩ => ⟨⟨unasked, nonNull⟩, bare, same.symm⟩⟩

theorem reports_compareField (declared given : Field) :
    (compareField concrete isInaccessible declared given).Reports concrete isInaccessible declared given where
  declaredType := rfl
  invalidType text := by
    simp only [compareField, ← TypeRef.narrows_iff]
    split
    · next narrower => simp [narrower]
    · next wider => simp [wider, eq_comm]
  missing := (lists_filter _ _).congr fun name => by
    rw [Bool.not_eq_true', ← Bool.not_eq_true, Table.contains_iff]
  mismatched := by
    refine (Table.lists_filterMap ArgumentMismatch.argument declared.arguments ?_).congr fun x => ⟨?_, ?_⟩
    · rintro ⟨name, argument⟩ x made
      obtain ⟨other, -, -, rfl⟩ := (mismatch_eq_some_iff given).mp made
      rfl
    · rintro ⟨argument, asked, made⟩
      obtain ⟨other, found, differs, made⟩ := (mismatch_eq_some_iff given).mp made
      exact ⟨argument, other, asked, found, differs, by rw [made], by rw [made]⟩
    · rintro ⟨argument, other, asked, found, differs, expected, actual⟩
      refine ⟨argument, asked, (mismatch_eq_some_iff given).mpr ⟨other, found, differs, ?_⟩⟩
      rw [← expected, ← actual]
  extra := by
    refine (Table.lists_filterMap id given.arguments ?_).congr fun name => ⟨?_, ?_⟩
    · rintro ⟨name, argument⟩ name' made
      exact ((extra_eq_some_iff declared).mp made).1
    · rintro ⟨argument, found, made⟩
      obtain ⟨-, unasked, nonNull, bare⟩ := (extra_eq_some_iff declared).mp made
      exact ⟨unasked, argument, found, nonNull, bare⟩
    · rintro ⟨unasked, argument, found, nonNull, bare⟩
      exact ⟨argument, found, (extra_eq_some_iff declared).mpr ⟨rfl, unasked, nonNull, bare⟩⟩
  inaccessible := by
    simp only [compareField, Bool.and_eq_true, Bool.not_eq_true']
    tauto

/-- The common arguments whose types are written differently. -/
def mismatchedTexts (declared given : Field) : List ArgumentMismatch :=
  declared.arguments.toList.filterMap fun (name, argument) =>
    match given.arguments.get? name with
    | none => none
    | some other =>
      if argument.type.text = other.type.text then none
      else some ⟨name, argument.type.text, other.type.text⟩

end Implementation

/-- Whether the types of all arguments have names of the grammar. -/
def Field.NamesArgumentTypes (f : Field) : Prop := ∀ name v, f.arguments.get? name = some v → v.type.isLegible = true

/-- Arguments that differ in their types are those that differ in the texts of their types. -/
theorem Implementation.mismatchedArguments_eq_texts (declaredNamed : declared.NamesArgumentTypes)
    (givenNamed : given.NamesArgumentTypes) :
    (compareField concrete isInaccessible declared given).mismatchedArguments = mismatchedTexts declared given := by
  refine List.filterMap_congr fun ⟨name, argument⟩ listed => ?_
  cases found : given.arguments.get? name with
  | none => simp only [found]
  | some other =>
    have same : argument.type.text = other.type.text ↔ argument.type = other.type :=
      TypeRef.text_injOn.eq_iff (declaredNamed name argument (Table.mem_toList.mp listed)) (givenNamed name other found)
    simp only [found, same]

/-! ## Interfaces -/

variable (concrete isInaccessible)

/-- A way in which a type fails an interface. -/
inductive Composite.Breaks (interface given : Composite) : Prop
  | missing (name : String) (asked : name ∈ interface.fields.keys) (absent : name ∉ given.fields.keys)
  | field (name : String) (declared field : Field) (asked : interface.fields.get? name = some declared)
      (found : given.fields.get? name = some field) (breaks : Field.Breaks concrete isInaccessible declared field)

/-- What is said of an interface. -/
structure InterfaceMismatch.Reports (interface given : Composite) (m : InterfaceMismatch) : Prop where
  missing : Lists interface.fields.keys id
    (fun name => name ∈ interface.fields.keys ∧ name ∉ given.fields.keys) m.missingFields
  fields : Lists interface.fields.keys Prod.fst
    (fun x => ∃ declared field, interface.fields.get? x.1 = some declared ∧ given.fields.get? x.1 = some field ∧
      Field.Breaks concrete isInaccessible declared field ∧ x.2.Reports concrete isInaccessible declared field)
    m.fields

variable {concrete isInaccessible} {interface given : Composite} {m m' : InterfaceMismatch}

theorem InterfaceMismatch.Reports.isNone_eq_false_iff (reports : m.Reports concrete isInaccessible interface given) :
    m.isNone = false ↔ Composite.Breaks concrete isInaccessible interface given := by
  have some : m.isNone = false ↔ m.missingFields ≠ [] ∨ m.fields ≠ [] := by
    simp only [InterfaceMismatch.isNone, Bool.and_eq_false_iff, List.isEmpty_eq_false_iff]
  rw [some, reports.missing.ne_nil_iff, reports.fields.ne_nil_iff]
  constructor
  · rintro (⟨name, asked, absent⟩ | ⟨x, declared, field, asked, found, breaks, -⟩)
    · exact .missing name asked absent
    · exact .field x.1 declared field asked found breaks
  · rintro (⟨name, asked, absent⟩ | ⟨name, declared, field, asked, found, breaks⟩)
    · exact .inl ⟨name, asked, absent⟩
    · exact .inr ⟨(name, _), declared, field, asked, found, breaks,
        Implementation.reports_compareField declared field⟩

theorem InterfaceMismatch.Reports.unique (reports : m.Reports concrete isInaccessible interface given)
    (reports' : m'.Reports concrete isInaccessible interface given) : m = m' := by
  have missing := reports.missing.unique interface.fields.nodup_keys reports'.missing
  have fields := reports.fields.unique interface.fields.nodup_keys reports'.fields
  cases m
  cases m'
  simp_all

namespace Implementation

private theorem field_eq_some_iff (given : Composite) {name : String} {declared : Field}
    {x : String × FieldMismatch} :
    (match given.fields.get? name with
      | none => none
      | some field =>
        let mismatch := compareField concrete isInaccessible declared field
        if mismatch.isNone then none else some (name, mismatch)) = some x ↔
      ∃ field, given.fields.get? name = some field ∧ Field.Breaks concrete isInaccessible declared field ∧
        x = (name, compareField concrete isInaccessible declared field) := by
  cases given.fields.get? name with
  | none => simp
  | some field =>
    simp only [Option.some.injEq, exists_eq_left', Option.ite_none_left_eq_some, Bool.not_eq_true,
      (reports_compareField declared field).isNone_eq_false_iff]
    exact and_congr_right fun _ => eq_comm

theorem reports_compare (interface given : Composite) :
    (compare concrete isInaccessible interface given).Reports concrete isInaccessible interface given where
  missing := (lists_filter _ _).congr fun name => by
    rw [Bool.not_eq_true', ← Bool.not_eq_true, Table.contains_iff]
  fields := by
    refine (Table.lists_filterMap Prod.fst interface.fields ?_).congr fun x => ⟨?_, ?_⟩
    · rintro ⟨name, declared⟩ x made
      obtain ⟨field, -, -, rfl⟩ := (field_eq_some_iff given).mp made
      rfl
    · rintro ⟨declared, asked, made⟩
      obtain ⟨field, found, breaks, made⟩ := (field_eq_some_iff given).mp made
      refine ⟨declared, field, asked, found, breaks, ?_⟩
      rw [made]
      exact reports_compareField declared field
    · rintro ⟨declared, field, asked, found, breaks, reports⟩
      refine ⟨declared, asked, (field_eq_some_iff given).mpr ⟨field, found, breaks, ?_⟩⟩
      rw [← reports.unique (reports_compareField declared field)]

variable {types : Registry} {typeName : String} {c : Composite}

/-- An interface to compare with is a registered one other than the type. -/
theorem target_eq_interface_iff {name : String} {interface : Composite} :
    target types typeName name = .interface interface ↔
      name ≠ typeName ∧ ∃ entry, types.get? name = some entry ∧ entry.shape = .interface interface := by
  unfold target
  cases types.get? name with
  | none => simp
  | some entry =>
    obtain ⟨_, _, _, _, shape⟩ := entry
    cases shape with
    | interface c => by_cases same : name = typeName <;> simp [same]
    | enum | inputObject | object | scalar | union => simp

variable (types typeName c) in
theorem lists_interfaces : Lists c.implements.toList Prod.fst
    (fun x => x.1 ∈ c.implements.toList ∧ x.1 ≠ typeName ∧ ∃ entry, types.get? x.1 = some entry ∧
      entry.shape = .interface x.2) (interfaces types typeName c) := by
  have among : (c.implements.toList.map id).Sublist c.implements.toList := by rw [List.map_id]
  refine ((lists_filterMap Prod.fst c.implements.toList id fun name x made => ?_).trans among).congr fun x => ⟨?_, ?_⟩
  · split at made
    · exact Option.some.inj made ▸ rfl
    · cases made
  · rintro ⟨name, member, made⟩
    split at made
    · next interface here =>
      obtain rfl := Option.some.inj made
      exact ⟨member, target_eq_interface_iff.mp here⟩
    · cases made
  · rintro ⟨member, interface⟩
    exact ⟨x.1, member, by rw [target_eq_interface_iff.mpr interface]⟩

theorem lists_mismatches : Lists c.implements.toList Prod.fst
    (fun x => x.1 ∈ c.implements.toList ∧ x.1 ≠ typeName ∧ ∃ entry interface, types.get? x.1 = some entry ∧
      entry.shape = .interface interface ∧ Composite.Breaks concrete isInaccessible interface c ∧
        x.2.Reports concrete isInaccessible interface c)
    (mismatches types concrete typeName isInaccessible c) := by
  -- Of an interface that is compared, what is said is left out just if it is nothing.
  have made_iff : ∀ {name : String} {interface : Composite} {x : String × InterfaceMismatch},
      (let mismatch := compare concrete isInaccessible interface c
        if mismatch.isNone then none else some (name, mismatch)) = some x ↔
      Composite.Breaks concrete isInaccessible interface c ∧
        x = (name, compare concrete isInaccessible interface c) := by
    intro name interface x
    simp only [Option.ite_none_left_eq_some, Bool.not_eq_true, Option.some.injEq,
      (reports_compare interface c).isNone_eq_false_iff]
    exact and_congr_right fun _ => eq_comm
  have compared := lists_interfaces types typeName c
  refine ((lists_filterMap Prod.fst _ Prod.fst ?_).trans compared.order).congr fun x => ⟨?_, ?_⟩
  · rintro ⟨name, interface⟩ x made
    exact (made_iff.mp made).2 ▸ rfl
  · rintro ⟨⟨name, interface⟩, listed, made⟩
    obtain ⟨member, other, entry, found, shape⟩ := (compared.mem _).mp listed
    obtain ⟨breaks, rfl⟩ := made_iff.mp made
    exact ⟨member, other, entry, interface, found, shape, breaks, reports_compare interface c⟩
  · rintro ⟨member, other, entry, interface, found, shape, breaks, reports⟩
    refine ⟨(x.1, interface), (compared.mem _).mpr ⟨member, other, entry, found, shape⟩, ?_⟩
    exact made_iff.mpr ⟨breaks, by rw [← reports.unique (reports_compare interface c)]⟩

end Implementation

end Reports

/-- What an error says about the interfaces that a type implements. -/
def Error.implementation? : Error → Option (TypeKind × String × List (String × InterfaceMismatch))
  | invalidImplementation kind typeName mismatches => some (kind, typeName, mismatches)
  | _ => none

/-- At most one error speaks of the interfaces that a type breaks. It has an entry for each of them, in the order in
which the type lists them, and each entry says what that interface and the type determine. Types of arguments are
compared, and to compare what is written for them gives the same wherever they have names of the grammar. -/
theorem Assembly.implementationErrors_exact (a : Assembly) (typeName : String) (entry : TypeEntry) (c : Composite) :
    (∃ reports : List (String × InterfaceMismatch),
      (a.implementationErrors typeName entry c).filterMap Error.implementation? =
        (if reports = [] then [] else [(entry.kind, typeName, reports)]) ∧
      Lists c.implements.toList Prod.fst (fun x => x.1 ∈ c.implements.toList ∧ x.1 ≠ typeName ∧
        ∃ other interface, a.types.get? x.1 = some other ∧ other.shape = .interface interface ∧
          Composite.Breaks a.survey.concrete entry.directives.isInaccessible interface c ∧
            x.2.Reports a.survey.concrete entry.directives.isInaccessible interface c) reports) ∧
      ∀ declared given : Field, declared.NamesArgumentTypes → given.NamesArgumentTypes →
        (Implementation.compareField a.survey.concrete entry.directives.isInaccessible declared
          given).mismatchedArguments = Implementation.mismatchedTexts declared given := by
  refine ⟨⟨_, ?_, Implementation.lists_mismatches⟩, fun _ _ => Implementation.mismatchedArguments_eq_texts⟩
  have undefined : ∀ names : List String, (names.map Error.undefinedType).filterMap Error.implementation? = [] :=
    fun names => List.filterMap_eq_nil_iff.mpr fun e member => by
      obtain ⟨name, -, rfl⟩ := List.mem_map.mp member
      rfl
  simp only [implementationErrors, List.filterMap_append, undefined, List.nil_append, List.isEmpty_iff]
  -- Kinds and self-reference are reported apart from what is compared.
  have others : ∀ (isSilent : Prop) [Decidable isSilent] (e : Error), e.implementation? = none →
      (if isSilent then [] else [e]).filterMap Error.implementation? = [] := by
    intro isSilent _ e none
    split <;> simp [none]
  rw [others _ _ rfl]
  split_ifs <;> rfl

section Read

variable {subgraph text : String} {maxOrScopes : Nat} {statements : List Statement}
variable (read : Grammar.readStatements? text = some statements)

include read

theorem Assembly.namesArgumentTypes_of_read {typeName name : String} {field : Field}
    (registered : (Assembly.of subgraph maxOrScopes statements).types.field? typeName name = some field) :
    field.NamesArgumentTypes := by
  obtain ⟨c, composite, declared⟩ := Option.bind_eq_some_iff.mp registered
  obtain ⟨entry, found, composite⟩ := Option.bind_eq_some_iff.mp composite
  have legible := (Survey.legible_walk (Grammar.isLegible_of_readStatements? read) found).2
  intro argument v listed
  exact ((legible.fields composite name field declared).2.arguments argument v listed).2.type

/-- What is registered of a text has types with names of the grammar only, so that between any two of its fields the
arguments with other types are those whose types are written otherwise. -/
theorem Assembly.mismatchedArguments_of_read {interfaceName typeName name : String} {declared given : Field}
    (registered : (Assembly.of subgraph maxOrScopes statements).types.field? interfaceName name = some declared)
    (compared : (Assembly.of subgraph maxOrScopes statements).types.field? typeName name = some given)
    (concrete : ConcreteTypes) (isInaccessible : Bool) :
    (Implementation.compareField concrete isInaccessible declared given).mismatchedArguments =
      Implementation.mismatchedTexts declared given :=
  Implementation.mismatchedArguments_eq_texts (namesArgumentTypes_of_read read registered)
    (namesArgumentTypes_of_read read compared)

end Read

/-- A type that breaks two interfaces: it lacks a field of the first, and the other is wider, misses an argument and
asks for one of its own; of the second it hides a field. -/
def brokenSubgraph : List Statement :=
  let argument (name typeName : String) (nonNull : Bool) : InputValueDefinition :=
    ⟨name, none, .named typeName nonNull, none, []⟩
  [.define (.type ⟨"Animal", none, [], .interface [] [⟨"name", none, [], .named "String" false, []⟩,
      ⟨"friends", none, [argument "first" "Int" true, argument "last" "Int" false], .list (.named "Cat" true) true,
        []⟩]⟩),
    .define (.type ⟨"Pet", none, [], .interface [] [⟨"owner", none, [], .named "String" false, []⟩]⟩),
    .define (.type ⟨"Cat", none, [], .object ["Animal", "Cat", "Query", "Pet", "Absent"] [
      ⟨"owner", none, [], .named "String" true, [⟨Vocabulary.inaccessible, []⟩]⟩,
      ⟨"friends", none, [argument "last" "ID" false, argument "limit" "Int" true], .list (.named "Cat" false) true,
        []⟩]⟩),
    .define (.type ⟨"Query", none, [], .object [] [⟨"cat", none, [], .named "Cat" false, []⟩]⟩)]

example : let a := Assembly.of "" 0 brokenSubgraph
    ((a.types.get? "Cat").bind fun entry => entry.composite?.map fun c =>
      Implementation.mismatches a.types a.survey.concrete "Cat" entry.directives.isInaccessible c) =
    some [
      ("Animal", ⟨["name"], [("friends",
        ⟨"[Cat!]!", some "[Cat]!", ["first"], [⟨"last", "Int", "ID"⟩], ["limit"], false⟩)]⟩),
      ("Pet", ⟨[], [("owner", ⟨"String", none, [], [], [], true⟩)]⟩)] := by
  decide +kernel

end Federation
