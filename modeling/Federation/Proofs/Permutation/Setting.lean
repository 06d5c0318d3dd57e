import Federation.Normalization.Walk
import Federation.Proofs.Batch.Order
import Federation.Proofs.Document.Definition

/-!
# Definitions in another order, and what is known before the walk

The definitions of a document may come in any order. Where each directive is defined once and the schema at most once,
the setting is the same but for the order in which it has directives, and no step of the walk sees that order.
-/

namespace Federation

open Schema

/-! ## Documents that define once -/

/-- One element has no other order. -/
theorem eq_of_perm_of_length_le_one {α : Type} {l l' : List α} (perm : l.Perm l') (few : l.length ≤ 1) : l' = l := by
  match l, few with
  | [], _ => exact List.nil_perm.mp perm
  | [a], _ => exact List.perm_singleton.mp perm.symm

namespace Schema

def Definition.schema? : Definition → Option SchemaDefinition
  | .schema d => some d
  | .directive _ | .type _ => none

namespace Document

def schemas (document : Document) : List SchemaDefinition := document.filterMap Definition.schema?

/-- Each type and each directive is defined once, and the schema at most once. -/
structure DefinesOnce (document : Document) : Prop where
  types : (document.types.map TypeDefinition.name).Nodup
  directives : (document.directives.map DirectiveDefinition.name).Nodup
  schemas : document.schemas.length ≤ 1

variable {document others : Document}

instance : Decidable document.DefinesOnce :=
  decidable_of_iff (_ ∧ _ ∧ _) ⟨fun ⟨types, directives, schemas⟩ => ⟨types, directives, schemas⟩,
    fun once => ⟨once.types, once.directives, once.schemas⟩⟩

theorem DefinesOnce.of_perm (once : document.DefinesOnce) (perm : document.Perm others) : others.DefinesOnce where
  types := ((perm.filterMap _).map _).nodup_iff.mp once.types
  directives := ((perm.filterMap _).map _).nodup_iff.mp once.directives
  schemas := (perm.filterMap _).length_eq ▸ once.schemas

/-- One schema definition has no other order. -/
theorem DefinesOnce.schemas_eq (once : document.DefinesOnce) (perm : document.Perm others) :
    others.schemas = document.schemas :=
  eq_of_perm_of_length_le_one (perm.filterMap _) once.schemas

end Document

end Schema

/-- Of elements with different names the first of a name is the only one. -/
theorem find?_eq_some_iff_of_nodup {α : Type} {name : α → String} {l : List α} (nodup : (l.map name).Nodup)
    {a : α} {n : String} : l.find? (name · = n) = some a ↔ a ∈ l ∧ name a = n := by
  induction l with
  | nil => simp
  | cons b l ih =>
    obtain ⟨absent, nodup⟩ := List.nodup_cons.mp nodup
    rw [List.find?_cons]
    by_cases here : name b = n
    · have later : a ∈ l → name a ≠ n := fun member same =>
        absent (List.mem_map.mpr ⟨a, member, same.trans here.symm⟩)
      simp only [here, decide_true, Option.some.injEq, List.mem_cons]
      constructor
      · rintro rfl
        exact ⟨.inl rfl, here⟩
      · rintro ⟨rfl | member, same⟩
        · rfl
        · exact absurd same (later member)
    · simp only [here, decide_false, ih nodup, List.mem_cons]
      constructor
      · rintro ⟨member, same⟩
        exact ⟨.inr member, same⟩
      · rintro ⟨rfl | member, same⟩
        · exact absurd same here
        · exact ⟨member, same⟩

/-! ## Settings -/

namespace Overview

/-- What a schema definition adds to root types, with the errors that it makes. -/
def declare (acc : RootTypes × List Error) (d : SchemaDefinition) : RootTypes × List Error :=
  ((declareRoots acc.1 d).1, acc.2 ++ (declareRoots acc.1 d).2)

variable {document : Document} {acc : Setting × List Error}

/-- Where no directive is defined twice, only schemas are met with errors. -/
theorem foldl_step_roots (nodup : (document.directives.map DirectiveDefinition.name).Nodup)
    (fresh : ∀ d ∈ document.directives, d.name ∉ acc.1.customDirectives.keys) :
    (((document.map Statement.define).foldl step acc).1.roots, ((document.map Statement.define).foldl step acc).2) =
      document.schemas.foldl declare (acc.1.roots, acc.2) := by
  induction document generalizing acc with
  | nil => rfl
  | cons x rest ih =>
    rcases x with d | d | t
    case schema => exact @ih (step acc (.define (.schema d))) nodup fresh
    case type => exact @ih (step acc (.define (.type t))) nodup fresh
    case directive =>
      obtain ⟨absent, nodup⟩ := List.nodup_cons.mp nodup
      have new : acc.1.customDirectives.contains d.name = false :=
        Bool.eq_false_iff.mpr fun known => fresh d List.mem_cons_self (Table.contains_iff.mp known)
      -- The name is new, so nothing is reported of the definition.
      have quiet : (defineDirective acc.1.customDirectives d).2 = [] := by
        unfold defineDirective
        rw [new]
        split <;> rfl
      have keys : ∀ name ∈ (defineDirective acc.1.customDirectives d).1.keys,
          name ∈ acc.1.customDirectives.keys ∨ name = d.name := by
        intro name member
        unfold defineDirective at member
        rw [new] at member
        split at member
        · exact .inl member
        · exact Table.mem_keys_upsert.mp member
      have rest := @ih (step acc (.define (.directive d))) nodup fun e later member => ?_
      · have errors : (step acc (.define (.directive d))).2 = acc.2 := by
          change acc.2 ++ (defineDirective acc.1.customDirectives d).2 = acc.2
          rw [quiet, List.append_nil]
        rw [errors] at rest
        exact rest
      · rcases keys e.name member with before | same
        · exact fresh e (List.mem_cons_of_mem _ later) before
        · exact absent (List.mem_map.mpr ⟨e, later, same⟩)

theorem get?_defineDirective (custom : Table String DirectiveDefinition) (d : DirectiveDefinition) (name : String) :
    (defineDirective custom d).1.get? name = (custom.get? name).or
      (if (Catalogue.directive? name).isNone ∧ d.name = name then some d else none) := by
  unfold defineDirective
  by_cases here : d.name = name
  · subst here
    cases Catalogue.directive? d.name with
    | some _ => simp
    | none =>
      cases known : custom.get? d.name with
      | none => simp [Bool.eq_false_iff.mpr fun has => Table.get?_eq_none_iff.mp known (Table.contains_iff.mp has)]
      | some e => simp [known, Table.contains_iff.mpr (Table.mem_keys_of_get? known)]
  · split
    · simp [here]
    split
    · simp [here]
    · simp [here, Ne.symm here]

/-- A directive that is not catalogued has its first definition. -/
theorem get?_foldl_step (name : String) :
    ((document.map Statement.define).foldl step acc).1.customDirectives.get? name =
      (acc.1.customDirectives.get? name).or (if (Catalogue.directive? name).isNone then
        document.directives.find? (·.name = name) else none) := by
  -- On the definitions: each gives its own name to a directive that neither the catalogue nor an earlier one has
  -- defined.
  induction document generalizing acc with
  | nil => simp [Document.directives]
  | cons x rest ih =>
    rcases x with d | d | t
    case schema => exact @ih (step acc (.define (.schema d)))
    case type => exact @ih (step acc (.define (.type t)))
    case directive =>
      have head : Document.directives (.directive d :: rest) = d :: Document.directives rest := rfl
      have first : (step acc (.define (.directive d))).1.customDirectives.get? name = _ :=
        get?_defineDirective acc.1.customDirectives d name
      rw [List.map_cons, List.foldl_cons, ih, first, head, List.find?_cons, Option.or_assoc]
      congr 1
      cases Catalogue.directive? name with
      | some _ => simp
      | none => by_cases here : d.name = name <;> simp [here]

end Overview

/-- Two settings that know the same, up to the order in which they have directives. -/
structure Setting.SameUpToOrder (setting setting' : Setting) : Prop where
  subgraph : setting'.subgraph = setting.subgraph
  maxOrScopes : setting'.maxOrScopes = setting.maxOrScopes
  roots : setting'.roots = setting.roots
  applied : ∀ name, name ∈ setting'.applied.toList ↔ name ∈ setting.applied.toList
  customDirectives : setting'.customDirectives.get? = setting.customDirectives.get?

theorem Setting.sameUpToOrder_of (subgraph : String) (maxOrScopes : Nat) {document others : Document}
    (once : document.DefinesOnce) (perm : document.Perm others) :
    (Setting.of subgraph maxOrScopes (document.map .define)).1.SameUpToOrder
        (Setting.of subgraph maxOrScopes (others.map .define)).1 ∧
      (Setting.of subgraph maxOrScopes (others.map .define)).2 =
        (Setting.of subgraph maxOrScopes (document.map .define)).2 := by
  have known := (Setting.of_consistent subgraph maxOrScopes (document.map .define)).2
  have known' := (Setting.of_consistent subgraph maxOrScopes (others.map .define)).2
  -- Roots are declared by schema definitions alone, and of these there is one at most, so their order is no matter.
  have fold {document : Document} (once : document.DefinesOnce) :
      ((of subgraph maxOrScopes (document.map .define)).1.roots, (of subgraph maxOrScopes (document.map .define)).2) =
        document.schemas.foldl Overview.declare (.empty, []) :=
    Overview.foldl_step_roots once.directives fun _ _ => List.not_mem_nil
  have schemas := fold (once.of_perm perm)
  rw [once.schemas_eq perm, ← fold once] at schemas
  obtain ⟨roots, errors⟩ := Prod.mk.inj schemas
  refine ⟨⟨known'.2.trans known.2.symm, known'.1.trans known.1.symm, roots, fun name => ?_, ?_⟩, errors⟩
  · have same := (perm.map Statement.define).flatMap_right Overview.appliedIn
    simp only [Setting.mem_applied_of, same.mem_iff]
  · funext name
    refine (Overview.get?_foldl_step name).trans (Eq.trans ?_ (Overview.get?_foldl_step name).symm)
    congr 2
    ext d
    have same := (perm.filterMap Definition.directive?).mem_iff (a := d)
    rw [find?_eq_some_iff_of_nodup once.directives, find?_eq_some_iff_of_nodup (once.of_perm perm).directives]
    exact and_congr_left' same.symm

namespace Setting.SameUpToOrder

variable {setting setting' : Setting} (same : setting.SameUpToOrder setting')

include same

theorem isVersionTwo : setting'.isVersionTwo = setting.isVersionTwo := by
  unfold Setting.isVersionTwo
  rw [Bool.eq_iff_iff, List.any_eq_true, List.any_eq_true]
  simp only [same.applied]

theorem mem_eventDirectives (name : String) :
    name ∈ setting'.eventDirectives.toList ↔ name ∈ setting.eventDirectives.toList := by
  simp only [Setting.eventDirectives, OrderedSet.toList_filter, List.mem_filter, same.applied]

theorem isEventDriven : setting'.isEventDriven = setting.isEventDriven := by
  have empty : setting'.eventDirectives.isEmpty = setting.eventDirectives.isEmpty := by
    rw [Bool.eq_iff_iff, OrderedSet.isEmpty_iff, OrderedSet.isEmpty_iff]
    simp only [List.eq_nil_iff_forall_not_mem, same.mem_eventDirectives]
  rw [Setting.isEventDriven, empty, Setting.isEventDriven]

theorem directive? : setting'.directive? = setting.directive? := by
  funext name
  rw [Setting.directive?, same.customDirectives, Setting.directive?]

theorem operation? : setting'.operation? = setting.operation? := by
  funext kind typeName
  rw [Setting.operation?, same.roots, Setting.operation?]

end Setting.SameUpToOrder

/-! ## The walk in settings that know the same -/

section Walk

variable {setting setting' : Setting} (same : setting.SameUpToOrder setting')

include same

theorem Intake.run_congr : run setting' = run setting := by
  have judge : judge setting' = judge setting := by
    funext location hostPath accepted repeats d
    rw [Intake.judge, same.directive?, Intake.judge]
  have own : overridesItself setting' = overridesItself setting := by
    funext d
    rw [overridesItself, same.subgraph, overridesItself]
  have step : step setting' = step setting := by
    funext location hostPath i d
    rw [Intake.step, judge, own, same.subgraph, Intake.step]
  funext location hostPath accepted repeats applied
  rw [run, step, run]

namespace Survey

theorem takeIn_congr : takeIn setting' = takeIn setting := by
  funext location hostPath accepted applied s
  rw [takeIn, Intake.run_congr same, takeIn]

theorem authorize_congr : authorize setting' = authorize setting := by
  funext host intake s
  rw [authorize, same.maxOrScopes, authorize]

theorem merge_congr : merge setting' = merge setting := by
  have extension : extensionOf setting' = extensionOf setting := by
    funext isExtension t intake
    rw [extensionOf, same.operation?, same.isVersionTwo, extensionOf]
  have taken : takeInType setting' = takeInType setting := by
    funext t old? s
    rw [takeInType, takeIn_congr same, authorize_congr same, takeInType]
  funext isExtension t s
  simp only [merge, extension, taken]

theorem sightField_congr : sightField setting' = sightField setting := by
  have argument : sightArgument setting' = sightArgument setting := by
    funext kind parent field acc a
    simp only [sightArgument, takeIn_congr same]
  have merged : mergeField setting' = mergeField setting := by
    funext parent entry existing? f s
    simp only [mergeField, takeIn_congr same, authorize_congr same, argument, same.roots, same.operation?]
  funext parent isExtension s f
  simp only [sightField, same.operation?, merged]

theorem sightChildren_congr : sightChildren setting' = sightChildren setting := by
  have enumValue : sightEnumValue setting' = sightEnumValue setting := by
    funext parent isExtension s v
    simp only [sightEnumValue, takeIn_congr same]
  have inputValue : sightInputValue setting' = sightInputValue setting := by
    funext parent isExtension s v
    simp only [sightInputValue, takeIn_congr same]
  funext isExtension t s
  simp only [sightChildren, enumValue, inputValue, sightField_congr same]

/-- A statement is looked at alike in settings that know the same. -/
theorem step_congr : step setting' = step setting := by
  have type : sightType setting' = sightType setting := by
    funext isExtension s t
    simp only [sightType, merge_congr same, sightChildren_congr same]
  have schema : sightSchema setting' = sightSchema setting := by
    funext s d
    simp only [sightSchema, takeIn_congr same]
  funext s x
  rcases x with (_ | _ | _) | _ | _ <;> simp only [step, type, schema]

theorem walk_congr : walk setting' = walk setting := by
  funext errors statements
  rw [walk, step_congr same, walk]

end Survey

end Walk

end Federation
