import Federation.Proofs.Authorization.Declaration
import Federation.Proofs.Directive.Order

/-!
# How declarations are read

The check of an argument takes a value that is no list for a list of itself. Scopes are read without this
coercion, so an application that is in order asks for what it says only where its scopes are lists of lists.
-/

namespace Federation

open Schema

namespace Schema.Value

/-- What is in a value where a list is expected: a value that is no list stands for a list of itself. -/
def coercedItems : Value → List Value
  | list items => items
  | v => [v]

/-- Whether a value is a list of lists. -/
def isNested (v : Value) : Bool := v.list?.any fun items => items.all fun item => item.list?.isSome

/-- The sets of names in a value where lists of lists are expected. Empty ones are left out. -/
def coercedScopes (v : Value) : List NameSet :=
  (v.coercedItems.map fun row => OrderedSet.ofList (row.coercedItems.filterMap string?)).filter
    (!·.isEmpty)

theorem list?_eq_some {v : Value} {items : List Value} : v.list? = some items ↔ v = .list items := by
  cases v <;> simp [list?]

end Schema.Value

/-- The declared type of scopes: a list of lists of scopes, without nulls. -/
def scopesType : TypeRef := .list (.list (.named Vocabulary.scopeScalar true) true) true

theorem Schema.TypeRef.admits_list {item : TypeRef} (nonNull : item.admits .null = false) (v : Value) :
    (TypeRef.list item true).admits v = v.coercedItems.all item.admits := by
  cases v <;> simp [admits, Value.isNull, Value.coercedItems, nonNull]

theorem Schema.TypeRef.admits_scope (v : Value) :
    (TypeRef.named Vocabulary.scopeScalar true).admits v = v.string?.isSome := by
  cases v <;> rfl

theorem admits_scopesType (v : Value) :
    scopesType.admits v =
      v.coercedItems.all fun row => row.coercedItems.all fun scope => scope.string?.isSome := by
  have scope : (TypeRef.named Vocabulary.scopeScalar true).admits = fun scope => scope.string?.isSome :=
    funext TypeRef.admits_scope
  have row : (TypeRef.list (.named Vocabulary.scopeScalar true) true).admits =
      fun row => row.coercedItems.all fun scope => scope.string?.isSome := by
    funext row
    rw [TypeRef.admits_list rfl, scope]
  rw [scopesType, TypeRef.admits_list rfl, row]

namespace Authorization

/-- A traversal that succeeds everywhere. -/
theorem mapM_eq_some {α β : Type} (f : α → Option β) (g : α → β) (xs : List α)
    (one : ∀ x ∈ xs, f x = some (g x)) : xs.mapM f = some (xs.map g) := by
  induction xs with
  | nil => rfl
  | cons x xs ih =>
    rw [List.mapM_cons, one x List.mem_cons_self, ih fun y member => one y (List.mem_cons_of_mem x member)]
    rfl

/-- A traversal that fails somewhere. -/
theorem mapM_eq_none {α β : Type} (f : α → Option β) {xs : List α} {x : α} (member : x ∈ xs)
    (fails : f x = none) : xs.mapM f = none := by
  induction xs with
  | nil => exact absurd member List.not_mem_nil
  | cons y ys ih =>
    rw [List.mapM_cons]
    rcases List.mem_cons.mp member with rfl | member
    · rw [fails]
      rfl
    · rw [ih member]
      cases f y <;> rfl

theorem mapM_string? (items : List Value) (strings : ∀ v ∈ items, v.string?.isSome = true) :
    items.mapM Value.string? = some (items.filterMap Value.string?) := by
  induction items with
  | nil => rfl
  | cons v items ih =>
    obtain ⟨name, read⟩ := Option.isSome_iff_exists.mp (strings v List.mem_cons_self)
    rw [List.mapM_cons, read, ih fun w member => strings w (List.mem_cons_of_mem v member),
      List.filterMap_cons, read]
    rfl

/-- The reader of scopes understands a value that is in order just where it is a list of lists. -/
theorem scopes?_of_admits {v : Value} (admitted : scopesType.admits v = true) :
    scopes? v = if v.isNested then some v.coercedScopes else none := by
  rw [admits_scopesType, List.all_eq_true] at admitted
  unfold scopes? Value.isNested
  cases listed : v.list? with
  | none => rfl
  | some rows =>
    obtain rfl := Value.list?_eq_some.mp listed
    have strings : ∀ row ∈ rows, ∀ scope ∈ row.coercedItems, scope.string?.isSome = true :=
      fun row member => List.all_eq_true.mp (admitted row member)
    simp only [Option.any_some, Option.bind_eq_bind, Option.bind_some]
    split
    · next nested =>
      rw [mapM_eq_some _ fun row => OrderedSet.ofList (row.coercedItems.filterMap Value.string?)]
      · rfl
      · intro row member
        obtain ⟨items, listed⟩ := Option.isSome_iff_exists.mp (List.all_eq_true.mp nested row member)
        obtain rfl := Value.list?_eq_some.mp listed
        have read := mapM_string? items (strings _ member)
        simp [Value.list?, Value.coercedItems, read]
    · next flat =>
      -- One row that is no list is enough for the reader to give up.
      have some : ∃ row ∈ rows, row.list? = none := by
        simpa [List.all_eq_true] using flat
      obtain ⟨row, member, unlisted⟩ := some
      rw [mapM_eq_none _ member (by rw [unlisted]; rfl)]
      rfl

/-- A value that is in order and no list of lists names a scope. -/
theorem coercedScopes_ne_nil {v : Value} (admitted : scopesType.admits v = true)
    (flat : v.isNested = false) : v.coercedScopes ≠ [] := by
  rw [admits_scopesType, List.all_eq_true] at admitted
  have some : ∃ row ∈ v.coercedItems, row.list? = none := by
    cases listed : v.list? with
    | none =>
      have itself : v.coercedItems = [v] := by
        cases v <;> first | rfl | exact absurd listed nofun
      exact ⟨v, itself ▸ List.mem_singleton_self v, listed⟩
    | some rows =>
      obtain rfl := Value.list?_eq_some.mp listed
      simpa [Value.isNested, Value.list?, Value.coercedItems] using flat
  obtain ⟨row, member, unlisted⟩ := some
  -- That row is a scope by itself, which makes an alternative of its own.
  have single : row.coercedItems = [row] := by
    cases row <;> first | rfl | exact absurd unlisted nofun
  have strings := List.all_eq_true.mp (admitted row member)
  obtain ⟨name, read⟩ := Option.isSome_iff_exists.mp (strings row (single ▸ List.mem_singleton_self row))
  have inside : OrderedSet.ofList [name] ∈ v.coercedScopes := by
    refine List.mem_filter.mpr ⟨List.mem_map.mpr ⟨row, member, ?_⟩, rfl⟩
    simp [single, read]
  exact List.ne_nil_of_mem inside

/-! ## Applications on one host -/

/-- The alternatives that a directive lists. -/
def listedScopes (d : Directive) : List NameSet :=
  ((d.argument? Vocabulary.scopes).map Value.coercedScopes).getD []

/-- What the authorization directives on one host say. -/
def Requirement.said (applied : List Directive) : Requirement where
  authenticated := applied.any (·.name = Vocabulary.authenticated)
  scopes := (applied.filter (·.name = Vocabulary.requiresScopes)).flatMap listedScopes

/-- Every application of scopes has the argument that is declared for it. -/
def InOrder (applied : List Directive) : Prop :=
  ∀ d ∈ applied, d.name = Vocabulary.requiresScopes →
    ∃ v, d.argument? Vocabulary.scopes = some v ∧ scopesType.admits v = true

/-- Whether the scopes on a host are lists of lists. -/
def AllNested (applied : List Directive) : Prop :=
  ∀ d ∈ applied, d.name = Vocabulary.requiresScopes →
    ∀ v, d.argument? Vocabulary.scopes = some v → v.isNested = true

/-- What is printed for a requirement can be read. -/
theorem allNested_directives (r : Requirement) : AllNested r.directives := by
  intro d member name v given
  unfold Requirement.directives at member
  rcases List.mem_append.mp member with member | member
  · split at member
    · rw [List.mem_singleton.mp member] at name
      exact absurd name (by decide)
    · exact absurd member List.not_mem_nil
  · split at member
    · exact absurd member List.not_mem_nil
    · rw [List.mem_singleton.mp member] at given
      obtain rfl := Option.some.inj given
      simp [Value.isNested, Value.list?]

theorem directive?_requiresScopes (setting : Setting) :
    ∃ definition, setting.directive? Vocabulary.requiresScopes = some definition ∧
      definition.arguments = [⟨Vocabulary.scopes, scopesType, none⟩] := by
  refine ⟨_, rfl, rfl⟩

theorem inOrder_of_allows {setting : Setting} {location : Location} {applied : List Directive}
    (allowed : ∀ d ∈ applied, setting.Allows location d) : InOrder applied := by
  intro d member name
  obtain ⟨definition, known, placed, clean⟩ := allowed d member
  obtain ⟨definition', known', arguments⟩ := directive?_requiresScopes setting
  rw [name, known'] at known
  obtain rfl : definition' = definition := Option.some.inj known
  have conforms := DirectiveConformance.conforms_iff.mpr ⟨placed, clean⟩
  -- The argument has no default, so that it has to be given.
  have present : Vocabulary.scopes ∈ d.arguments.map Prod.fst := by
    apply conforms.complete ⟨Vocabulary.scopes, scopesType, none⟩
    · rw [arguments]
      exact List.mem_singleton_self _
    · rfl
  obtain ⟨a, listed, same⟩ := List.mem_map.mp present
  have found : (d.arguments.find? (·.1 = Vocabulary.scopes)).isSome = true :=
    List.find?_isSome.mpr ⟨a, listed, by simp [same]⟩
  obtain ⟨first, found⟩ := Option.isSome_iff_exists.mp found
  have named : first.1 = Vocabulary.scopes := by simpa using List.find?_some found
  obtain ⟨argument, declared, admitted⟩ := conforms.declared first.1 first.2 (List.mem_of_find?_eq_some found)
  refine ⟨first.2, by rw [Directive.argument?, found, Option.map_some], ?_⟩
  unfold DirectiveDefinition.argument? at declared
  rw [arguments, named] at declared
  obtain rfl := Option.some.inj declared
  exact admitted

theorem any_eq_of_countP_le {α : Type} (p : α → Bool) (xs : List α) (once : xs.countP p ≤ 1) :
    xs.any p = decide (xs.countP p = 1) := by
  rw [Bool.eq_iff_iff, List.any_eq_true, ← List.countP_pos_iff, decide_eq_true_eq]
  omega

/-- Where no directive is repeated, what is declared on a host is what its directives say, or nothing where
the scopes are no list of lists. -/
theorem asked_on (limit : Nat) {applied : List Directive} (inOrder : InOrder applied)
    (within : (Declared.on limit applied matches .overLimit) = false)
    (once : applied.countP (·.name = Vocabulary.authenticated) ≤ 1)
    (single : applied.countP (·.name = Vocabulary.requiresScopes) ≤ 1) :
    (AllNested applied → (Declared.on limit applied).asked = .said applied) ∧
      (¬ AllNested applied → (Declared.on limit applied).asked = .none) := by
  have said := any_eq_of_countP_le _ applied once
  unfold Declared.on Declared.of Requirement.said at *
  rw [List.countP_eq_length_filter] at single
  generalize listed : applied.filter (fun d => decide (d.name = Vocabulary.requiresScopes)) = scopings at *
  have known : ∀ d, d ∈ scopings ↔ d ∈ applied ∧ d.name = Vocabulary.requiresScopes := by
    intro d
    rw [← listed, List.mem_filter, decide_eq_true_eq]
  generalize applied.countP (fun d => decide (d.name = Vocabulary.authenticated)) = count at *
  rw [said]
  -- No application of scopes, one, or more than one.
  rcases scopings with _ | ⟨d, _ | ⟨e, rest⟩⟩
  · have nested : AllNested applied :=
      fun d member name => absurd ((known d).mpr ⟨member, name⟩) List.not_mem_nil
    refine ⟨fun _ => ?_, fun flat => absurd nested flat⟩
    rcases (by omega : count = 0 ∨ count = 1) with rfl | rfl <;> rfl
  · have here := (known d).mp List.mem_cons_self
    obtain ⟨v, given, admitted⟩ := inOrder d here.1 here.2
    have nested : AllNested applied ↔ v.isNested = true := by
      constructor
      · exact fun all => all d here.1 here.2 v given
      · intro nested e member name w given'
        obtain rfl := List.mem_singleton.mp ((known e).mpr ⟨member, name⟩)
        obtain rfl := Option.some.inj (given.symm.trans given')
        exact nested
    have read := scopes?_of_admits admitted
    have proper : ¬ (count > 1 ∨ [d].length > 1 ∨ (count = 0 ∧ [d].isEmpty = true)) := by
      simp only [List.length_singleton, List.isEmpty_cons, Bool.false_eq_true, and_false, or_false]
      omega
    rw [if_neg proper] at within ⊢
    simp only [List.head?_cons, Option.bind_some, given] at within ⊢
    by_cases full : (v.list?.any fun listed => listed.length > limit) = true
    · simp [full] at within
    · rw [if_neg full, read, nested]
      cases v.isNested with
      | true => exact ⟨fun _ => by simp [Declared.asked, listedScopes, given], fun flat => absurd rfl flat⟩
      | false => exact ⟨fun nested => absurd nested Bool.noConfusion, fun _ => rfl⟩
  · simp at single

end Authorization

end Federation
