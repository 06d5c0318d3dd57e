import Federation.Proofs.Batch.Order
import Federation.Proofs.Normalization.Setting
import Federation.Proofs.Registry.Union

/-!
# The order of a definition and its extensions

A type may be extended before it is defined. Its entry is the same then, but for the fields of a type that is marked as
external: those that are declared before the mark are not made external by it.
-/

namespace Federation

open Schema

/-- The same statements, the sightings of one type in another order. -/
structure Reorders (typeName : String) (statements others : List Statement) : Prop where
  perm : statements.Perm others
  beside : statements.filter (fun x => (x.sighting? typeName).isNone) =
    others.filter fun x => (x.sighting? typeName).isNone

/-! ## The setting -/

namespace Overview

theorem step_sighting {typeName : String} {x : Statement} (sights : (x.sighting? typeName).isSome = true)
    (acc : Setting × List Error) : step acc x = acc := by
  rcases x with (_ | _ | _) | _ | _
  case define.type | extendType => rfl
  all_goals exact absurd sights Bool.false_ne_true

theorem step_withApplied (acc : Setting × List Error) (applied : NameSet) (x : Statement) :
    step ({ acc.1 with applied }, acc.2) x = ({ (step acc x).1 with applied }, (step acc x).2) := by
  rcases x with (_ | _ | _) | _ | _ <;> rfl

theorem foldl_step_withApplied (acc : Setting × List Error) (applied : NameSet) (statements : List Statement) :
    statements.foldl step ({ acc.1 with applied }, acc.2) =
      ({ (statements.foldl step acc).1 with applied }, (statements.foldl step acc).2) := by
  induction statements generalizing acc with
  | nil => rfl
  | cons x rest ih => rw [List.foldl_cons, step_withApplied, ih, List.foldl_cons]

theorem foldl_step_filter (typeName : String) (acc : Setting × List Error) (statements : List Statement) :
    (statements.filter fun x => (x.sighting? typeName).isNone).foldl step acc = statements.foldl step acc := by
  induction statements generalizing acc with
  | nil => rfl
  | cons x rest ih =>
    rw [List.filter_cons, List.foldl_cons]
    cases sights : x.sighting? typeName with
    | none => exact ih (step acc x)
    | some _ =>
      rw [step_sighting (sights ▸ rfl : (x.sighting? typeName).isSome = true)]
      exact ih acc

end Overview

/-- Sightings say nothing of the setting but which directives are applied, and of these the order does not count. -/
theorem Reorders.setting {typeName : String} {statements others : List Statement}
    (reorders : Reorders typeName statements others) (subgraph : String) (maxOrScopes : Nat) :
    ∃ applied, (Setting.of subgraph maxOrScopes others).1 =
        { (Setting.of subgraph maxOrScopes statements).1 with applied } ∧
      (Setting.of subgraph maxOrScopes others).1.isVersionTwo =
        (Setting.of subgraph maxOrScopes statements).1.isVersionTwo := by
  refine ⟨.ofList ((others.flatMap Overview.appliedIn).map Directive.name), ?_, ?_⟩
  · let start : Setting :=
      { subgraph, maxOrScopes, applied := .ofList ((statements.flatMap Overview.appliedIn).map Directive.name)
        roots := .empty, customDirectives := .empty }
    unfold Setting.of
    dsimp only
    rw [← Overview.foldl_step_filter typeName _ others, ← reorders.beside, Overview.foldl_step_filter]
    exact congrArg Prod.fst (Overview.foldl_step_withApplied (start, []) _ statements)
  · unfold Setting.isVersionTwo
    rw [Bool.eq_iff_iff, List.any_eq_true, List.any_eq_true]
    simp only [Setting.mem_applied_of, (reorders.perm.flatMap_right _).mem_iff]

theorem TypeEntry.ofSightings_withApplied {setting : Setting} {applied : NameSet}
    (same : ({ setting with applied } : Setting).isVersionTwo = setting.isVersionTwo) (xs : List Sighting) :
    ofSightings { setting with applied } xs = ofSightings setting xs := by
  have grow : grown { setting with applied } = grown setting := by
    funext old? x
    unfold grown joined Survey.extensionOf
    rw [same]
    rfl
  rw [ofSightings, grow, ofSightings]

/-- The entry of a type, where only its sightings come in another order. -/
theorem Reorders.get?_types {typeName : String} {statements others : List Statement}
    (reorders : Reorders typeName statements others) (subgraph : String) (maxOrScopes : Nat) :
    (Assembly.of subgraph maxOrScopes others).types.get? typeName =
      TypeEntry.ofSightings (Setting.of subgraph maxOrScopes statements).1 (Sighting.all others typeName) := by
  obtain ⟨applied, other, same⟩ := reorders.setting subgraph maxOrScopes
  refine (Survey.get?_walk (Setting.of subgraph maxOrScopes others).1 _ others typeName).trans ?_
  rw [other] at same ⊢
  exact TypeEntry.ofSightings_withApplied same _

theorem Reorders.refl (typeName : String) (statements : List Statement) : Reorders typeName statements statements :=
  ⟨.refl _, rfl⟩

namespace Sighting

def statement (x : Sighting) : Statement := if x.isExtension then .extendType x.type else .define (.type x.type)

theorem eq_statement {typeName : String} {s : Statement} {x : Sighting} (sights : s.sighting? typeName = some x) :
    s = x.statement ∧ x.statement.sighting? typeName = some x := by
  have own := sights
  rcases s with (_ | _ | t) | _ | t
  case define.type | extendType =>
    dsimp only [Statement.sighting?] at own
    split at own
    · obtain rfl := Option.some.inj own
      exact ⟨rfl, sights⟩
    · cases own
  all_goals cases own

theorem filter_eq_map_statement (typeName : String) (statements : List Statement) :
    statements.filter (fun s => !(s.sighting? typeName).isNone) =
      (all statements typeName).map statement := by
  unfold all
  induction statements with
  | nil => rfl
  | cons s rest ih =>
    rw [List.filter_cons, List.filterMap_cons]
    cases sights : s.sighting? typeName with
    | none => exact ih
    | some x =>
      rw [if_pos (by simp), List.map_cons, ih, ← (eq_statement sights).1]

end Sighting

/-- The sightings of a type can be brought into every order. -/
theorem exists_reorders {typeName : String} {statements : List Statement} {xs : List Sighting}
    (perm : (Sighting.all statements typeName).Perm xs) :
    ∃ others, Reorders typeName statements others ∧ Sighting.all others typeName = xs := by
  -- What does not sight the type goes first, as it is, and the sightings behind it in the order asked for.
  let beside := statements.filter fun x => (x.sighting? typeName).isNone
  have sights : ∀ x ∈ xs, x.statement.sighting? typeName = some x := by
    intro x member
    obtain ⟨s, -, sights⟩ := List.mem_filterMap.mp (perm.mem_iff.mpr member)
    exact (Sighting.eq_statement sights).2
  have unsighted : (xs.map Sighting.statement).filter (fun s => (s.sighting? typeName).isNone) = [] := by
    rw [List.filter_eq_nil_iff]
    rintro _ member
    obtain ⟨x, given, rfl⟩ := List.mem_map.mp member
    simp [sights x given]
  have none : beside.filterMap (Statement.sighting? typeName) = [] := by
    rw [List.filterMap_eq_nil_iff]
    intro s member
    simpa using (List.mem_filter.mp member).2
  refine ⟨beside ++ xs.map Sighting.statement, ⟨?_, ?_⟩, ?_⟩
  · refine (List.filter_append_perm (fun s => (s.sighting? typeName).isNone) statements).symm.trans ?_
    rw [Sighting.filter_eq_map_statement]
    exact (perm.map _).append_left _
  · rw [List.filter_append, unsighted, List.append_nil, List.filter_filter]
    simp
  · rw [Sighting.all, List.filterMap_append, none, List.nil_append, List.filterMap_map]
    exact (List.filterMap_congr sights).trans (List.filterMap_some)

/-! ## Entries that differ in order only -/

/-- Two fields that differ at most in whether another subgraph is said to resolve them. -/
def Field.SameButExternal (f g : Field) : Prop := { f with isExternal := g.isExternal } = g

/-- Two entries that differ in order only, and otherwise in their fields as far as these may differ. -/
structure TypeEntry.SameUpToOrder (alike : Field → Field → Prop) (a b : TypeEntry) : Prop where
  kind : a.kind = b.kind
  description : a.description = b.description
  extension : a.extension = b.extension
  hasBase : a.hasBase = b.hasBase
  directives : Table.Agree List.Perm a.directives b.directives
  isEntity : a.isEntity = b.isEntity
  isInaccessible : a.directives.isInaccessible = b.directives.isInaccessible
  listed : a.shape.listedNames.SameMembers b.shape.listedNames
  fields : a.fields.Agree alike b.fields
  values : a.values.Agree Eq b.values
  inputs : a.inputs.Agree Eq b.inputs

/-- Applications in another order make the same table, up to the order of each directive. -/
theorem AppliedDirectives.agree_ofList {applied others : List Directive} (perm : applied.Perm others) :
    Table.Agree List.Perm (ofList applied) (ofList others) := by
  refine .of_keys (fun name => ?_) fun name v w found found' => ?_
  · simp only [mem_keys_ofList, perm.mem_iff]
  · have here : v = (ofList applied).named name := by simp [named, Table.getD, found]
    have here' : w = (ofList others).named name := by simp [named, Table.getD, found']
    rw [here, here', named_ofList, named_ofList]
    exact perm.filter _

theorem AppliedDirectives.contains_agree {applied others : AppliedDirectives}
    (agree : Table.Agree List.Perm applied others) (name : String) :
    Table.contains applied name = Table.contains others name := by
  rw [Bool.eq_iff_iff, Table.contains_iff, Table.contains_iff, agree.keys.mem_iff]

namespace Sighting

variable {setting : Setting} {xs ys : List Sighting}

/-- A field is declared as external if its sighting or one before it marks the type. -/
theorem mem_fieldsFrom {isMarked : Bool} {e : String × Field} : e ∈ fieldsFrom setting isMarked xs ↔
    ∃ before x after, xs = before ++ x :: after ∧
      e ∈ x.declaredFields setting (isMarked || (before ++ [x]).any (marks setting)) := by
  constructor
  · intro member
    induction xs generalizing isMarked with
    | nil => cases member
    | cons x rest ih =>
      rcases List.mem_append.mp member with first | later
      · exact ⟨[], x, rest, rfl, by simpa using first⟩
      · obtain ⟨before, y, after, rfl, declared⟩ := ih later
        exact ⟨x :: before, y, after, rfl, by simpa [Bool.or_assoc] using declared⟩
  · rintro ⟨before, x, after, rfl, declared⟩
    rw [List.append_cons, fieldsFrom_append, fieldsFrom_append]
    refine List.mem_append_left _ (List.mem_append_right _ ?_)
    simpa [fieldsFrom, Bool.or_assoc] using declared

/-- Sightings of a base definition and of its extensions, all of one kind, that repeat nothing and describe the type at
most once. -/
structure BaseWithExtensions (setting : Setting) (xs : List Sighting) : Prop extends Separate setting xs where
  kind : ∀ x ∈ xs, ∀ y ∈ xs, x.type.kind = y.type.kind
  base : xs.countP (fun x => !x.isExtension) = 1
  described : (xs.filterMap fun x => nonEmptyDescription x.type.description).length ≤ 1

/-- If a sighting marks the type as external, the fields of the others are external by themselves. -/
def MarksAlike (setting : Setting) (xs : List Sighting) : Prop :=
  xs.any (marks setting) = true → ∀ x ∈ xs, x.marks setting = false →
    ∀ f ∈ x.fields setting, (Field.declared setting x.type.name false none f).isExternal = true

instance (setting : Setting) (xs : List Sighting) : Decidable (BaseWithExtensions setting xs) :=
  decidable_of_iff (Separate setting xs ∧ _ ∧ _ ∧ _)
    ⟨fun ⟨separate, kind, base, described⟩ => ⟨separate, kind, base, described⟩,
      fun ⟨separate, kind, base, described⟩ => ⟨separate, kind, base, described⟩⟩

instance (setting : Setting) (xs : List Sighting) : Decidable (MarksAlike setting xs) :=
  inferInstanceAs <| Decidable (_ → ∀ x ∈ xs, _ → ∀ f ∈ x.fields setting,
    (Field.declared setting x.type.name false none f).isExternal = true)

theorem Separate.of_perm (separate : Separate setting xs) (perm : xs.Perm ys) : Separate setting ys where
  listed := (perm.flatMap_right _).nodup_iff.mp separate.listed
  fields := (perm.flatMap_right _).nodup_iff.mp separate.fields
  values := (perm.flatMap_right _).nodup_iff.mp separate.values
  inputs := (perm.flatMap_right _).nodup_iff.mp separate.inputs
  directives := ((perm.flatMap_right _).pairwise_iff Intake.Apart.symm).mp separate.directives

theorem BaseWithExtensions.of_perm (given : BaseWithExtensions setting xs) (perm : xs.Perm ys) :
    BaseWithExtensions setting ys where
  toSeparate := given.toSeparate.of_perm perm
  kind x member y member' := given.kind x (perm.mem_iff.mpr member) y (perm.mem_iff.mpr member')
  base := (perm.countP_eq _).symm.trans given.base
  described := (perm.filterMap _).length_eq ▸ given.described

theorem BaseWithExtensions.ne_nil (given : BaseWithExtensions setting xs) : xs ≠ [] := by
  rintro rfl
  exact absurd given.base (by simp)

theorem BaseWithExtensions.unites (given : BaseWithExtensions setting xs) :
    ∃ entry, TypeEntry.ofSightings setting xs = some entry ∧ entry.Unites setting xs :=
  TypeEntry.unites_ofSightings given.ne_nil given.kind given.toSeparate

theorem BaseWithExtensions.unites_of_made (given : BaseWithExtensions setting xs) {entry : TypeEntry}
    (made : TypeEntry.ofSightings setting xs = some entry) : entry.Unites setting xs := by
  obtain ⟨entry', made', united⟩ := given.unites
  obtain rfl := Option.some.inj (made.symm.trans made')
  exact united

/-- Without extensions there is one sighting, and no other order. -/
theorem BaseWithExtensions.eq_of_perm (given : BaseWithExtensions setting xs) (perm : xs.Perm ys)
    (base : ∀ x ∈ xs, x.isExtension = false) : ys = xs := by
  have one : xs.length = 1 := by
    rw [← given.base, eq_comm, List.countP_eq_length]
    exact fun x member => by simp [base x member]
  obtain ⟨x, rfl⟩ := List.length_eq_one_iff.mp one
  exact List.perm_singleton.mp perm.symm

/-- Where at most one sighting describes the type, its description is found in every order. -/
theorem BaseWithExtensions.description_eq (given : BaseWithExtensions setting xs) (perm : xs.Perm ys) :
    (xs.findSome? fun x => nonEmptyDescription x.type.description) =
      ys.findSome? fun x => nonEmptyDescription x.type.description := by
  have descriptions := perm.filterMap fun x => nonEmptyDescription x.type.description
  have few := given.described
  rw [← List.head?_filterMap, ← List.head?_filterMap]
  generalize xs.filterMap _ = own at descriptions few
  match own, few with
  | [], _ => rw [List.nil_perm.mp descriptions]
  | [d], _ => rw [List.perm_singleton.mp descriptions.symm]

end Sighting

namespace Field

/-- Where a field is external by itself, its type need not be. -/
theorem declared_of_isExternal {setting : Setting} {parent : String} {f : FieldDefinition}
    (own : (declared setting parent false none f).isExternal = true) (isParentExternal : Bool) :
    declared setting parent isParentExternal none f = declared setting parent true none f := by
  cases isParentExternal with
  | true => rfl
  | false =>
    have flag : (declared setting parent false none f).isExternal = (declared setting parent true none f).isExternal :=
      own.trans (by simp [declared])
    exact congrArg (fun isExternal => { declared setting parent true none f with isExternal }) flag

end Field

namespace TypeEntry

section Permuted

variable {setting : Setting} {xs ys : List Sighting} {a b : TypeEntry} {name : String} {v w : Field}

theorem Unites.get?_fields (united : a.Unites setting xs) : a.fields.get? name = some v ↔
    ∃ before x after, xs = before ++ x :: after ∧
      (name, v) ∈ x.declaredFields setting ((before ++ [x]).any (Sighting.marks setting)) := by
  rw [← Table.mem_toList, united.fields, Sighting.mem_fieldsFrom]
  simp

/-- What two entries have under one name is one field of one sighting, declared in a type that is external or not. -/
theorem Unites.exists_declared (united : a.Unites setting xs) (united' : b.Unites setting ys)
    (perm : xs.Perm ys) (found : a.fields.get? name = some v) (found' : b.fields.get? name = some w) :
    ∃ before x after before' after', xs = before ++ x :: after ∧ ys = before' ++ x :: after' ∧
      ∃ f ∈ x.fields setting,
        v = .declared setting x.type.name ((before ++ [x]).any (Sighting.marks setting)) none f ∧
        w = .declared setting x.type.name ((before' ++ [x]).any (Sighting.marks setting)) none f := by
  obtain ⟨before, x, after, here, declared⟩ := united.get?_fields.mp found
  obtain ⟨f, member, same⟩ := List.mem_map.mp declared
  obtain ⟨rfl, rfl⟩ := Prod.mk.inj same
  have there : x ∈ ys := perm.mem_iff.mp (here ▸ List.mem_append_right _ List.mem_cons_self)
  obtain ⟨before', after', here'⟩ := List.append_of_mem there
  have again := united'.get?_fields.mpr ⟨before', x, after', here', List.mem_map.mpr ⟨f, member, rfl⟩⟩
  exact ⟨before, x, after, before', after', here, here', f, member, rfl, Option.some.inj (found'.symm.trans again)⟩

theorem Unites.sameButExternal (united : a.Unites setting xs) (united' : b.Unites setting ys) (perm : xs.Perm ys)
    (found : a.fields.get? name = some v) (found' : b.fields.get? name = some w) : v.SameButExternal w := by
  obtain ⟨_, _, _, _, _, -, -, f, -, rfl, rfl⟩ := united.exists_declared united' perm found found'
  rfl

theorem Unites.eq_of_marksAlike (united : a.Unites setting xs) (united' : b.Unites setting ys) (perm : xs.Perm ys)
    (alike : Sighting.MarksAlike setting xs) (found : a.fields.get? name = some v)
    (found' : b.fields.get? name = some w) : v = w := by
  obtain ⟨before, x, after, before', after', here, here', f, member, rfl, rfl⟩ :=
    united.exists_declared united' perm found found'
  -- A mark in the sighting of the field counts in every order, so that only marks in others are left to look at.
  cases own : x.marks setting with
  | true => simp [own]
  | false =>
    have listed : x ∈ xs := here ▸ List.mem_append_right _ List.mem_cons_self
    cases marked : xs.any (Sighting.marks setting) with
    | true =>
      have external := alike marked x listed own f member
      exact (Field.declared_of_isExternal external _).trans (Field.declared_of_isExternal external _).symm
    | false =>
      have unmarked : ys.any (Sighting.marks setting) = false := perm.any_eq ▸ marked
      rw [here] at marked
      rw [here'] at unmarked
      simp only [List.any_append, List.any_cons, Bool.or_eq_false_iff] at marked unmarked
      simp [own, marked.1, unmarked.1]

theorem sameUpToOrder {alike : Field → Field → Prop} (given : Sighting.BaseWithExtensions setting xs)
    (perm : xs.Perm ys) (made : ofSightings setting xs = some a) (made' : ofSightings setting ys = some b)
    (fields : ∀ name v w, a.fields.get? name = some v → b.fields.get? name = some w → alike v w) :
    a.SameUpToOrder alike b := by
  have united := given.unites_of_made made
  have united' := (given.of_perm perm).unites_of_made made'
  have kind : a.kind = b.kind := by
    obtain ⟨x, member⟩ := List.exists_mem_of_ne_nil xs given.ne_nil
    exact (united.kind x member).symm.trans (united'.kind x (perm.mem_iff.mp member))
  have directives : Table.Agree List.Perm a.directives b.directives := by
    rw [united.directives, united'.directives, kind]
    exact AppliedDirectives.agree_ofList ((perm.flatMap_right _).filter _)
  constructor
  case kind => exact kind
  case description => rw [united.description, united'.description, given.description_eq perm]
  case extension =>
    -- Without extensions there is one sighting, and nothing to reorder.
    by_cases extended : ∃ x ∈ xs, x.isExtension = true
    · have extended' : ∃ y ∈ ys, y.isExtension = true := by simpa only [perm.mem_iff] using extended
      rw [united.extension.mpr extended, united'.extension.mpr extended']
    · have base : ∀ x ∈ xs, x.isExtension = false := by simpa using extended
      rw [given.eq_of_perm perm base] at made'
      rw [Option.some.inj (made.symm.trans made')]
  case hasBase => rw [united.hasBase, united'.hasBase, perm.any_eq]
  case directives => exact directives
  case isEntity => exact AppliedDirectives.contains_agree directives _
  case isInaccessible => exact AppliedDirectives.contains_agree directives _
  case listed =>
    unfold OrderedSet.SameMembers
    rw [united.listed, united'.listed]
    exact perm.flatMap_right _
  case fields =>
    refine .of_keys (fun name => ?_) fields
    rw [Table.keys, united.fields, Sighting.keys_fieldsFrom, Table.keys, united'.fields, Sighting.keys_fieldsFrom]
    exact (perm.flatMap_right _).mem_iff
  case values =>
    refine .of_perm (fun _ => rfl) ?_
    rw [united.values, united'.values]
    exact perm.flatMap_right _
  case inputs =>
    refine .of_perm (fun _ => rfl) ?_
    rw [united.inputs, united'.inputs]
    exact perm.flatMap_right _

/-- If the order never counts, a type that is marked as external has no fields but external ones. -/
theorem marksAlike_of_sameUpToOrder (given : Sighting.BaseWithExtensions setting xs)
    (same : ∀ ys, xs.Perm ys → ∃ b, ofSightings setting ys = some b ∧ a.SameUpToOrder Eq b) :
    Sighting.MarksAlike setting xs := by
  classical
  intro marked x member own f declared
  obtain ⟨y, member', mark⟩ := List.any_eq_true.mp marked
  have other : y ≠ x := by
    rintro rfl
    exact Bool.noConfusion (own.symm.trans mark)
  have perm : xs.Perm (x :: y :: (xs.erase x).erase y) :=
    (List.perm_cons_erase member).trans (.cons x (List.perm_cons_erase ((List.mem_erase_of_ne other).mpr member')))
  have swapped := perm.trans (.swap y x _)
  obtain ⟨b, made, alike⟩ := same _ perm
  obtain ⟨b', made', alike'⟩ := same _ swapped
  -- The mark comes after the field in one order, and before it in the other.
  have after := ((given.of_perm perm).unites_of_made made).get?_fields.mpr
    ⟨[], x, _, rfl, List.mem_map.mpr ⟨f, declared, rfl⟩⟩
  have before := ((given.of_perm swapped).unites_of_made made').get?_fields.mpr
    ⟨[y], x, _, rfl, List.mem_map.mpr ⟨f, declared, rfl⟩⟩
  obtain ⟨v, found⟩ := Table.exists_get?_of_mem_keys (alike.fields.keys.mem_iff.mpr (Table.mem_keys_of_get? after))
  have late := alike.fields.values _ _ _ found after
  have early := alike'.fields.values _ _ _ found before
  have flags := congrArg Field.isExternal (late.symm.trans early)
  simpa [own, mark, Field.declared] using flags

end Permuted

end TypeEntry

/-- A type that is defined once and extended any number of times, without repetitions, has what its sightings say,
whatever their order, up to the marks of external fields. These do not depend on the order either just where no sighting
marks the type as external, or the fields of all other sightings are external by themselves. -/
theorem registered_reordered_iff (subgraph : String) (maxOrScopes : Nat) {statements : List Statement}
    {typeName : String}
    (given : Sighting.BaseWithExtensions (Setting.of subgraph maxOrScopes statements).1
      (Sighting.all statements typeName)) :
    ∃ entry, (Assembly.of subgraph maxOrScopes statements).types.get? typeName = some entry ∧
      entry.Unites (Setting.of subgraph maxOrScopes statements).1 (Sighting.all statements typeName) ∧
      (∀ others, Reorders typeName statements others → ∃ entry',
        (Assembly.of subgraph maxOrScopes others).types.get? typeName = some entry' ∧
          entry.SameUpToOrder Field.SameButExternal entry') ∧
      ((∀ others, Reorders typeName statements others → ∃ entry',
          (Assembly.of subgraph maxOrScopes others).types.get? typeName = some entry' ∧
            entry.SameUpToOrder Eq entry') ↔
        Sighting.MarksAlike (Setting.of subgraph maxOrScopes statements).1 (Sighting.all statements typeName)) := by
  obtain ⟨entry, made, united⟩ := given.unites
  have registered {others : List Statement} (reorders : Reorders typeName statements others) :=
    reorders.get?_types subgraph maxOrScopes
  have perm {others : List Statement} (reorders : Reorders typeName statements others) :
      (Sighting.all statements typeName).Perm (Sighting.all others typeName) := reorders.perm.filterMap _
  refine ⟨entry, (registered (.refl typeName statements)).trans made, united, ?_, ?_, ?_⟩
  · intro others reorders
    obtain ⟨entry', made', united'⟩ := (given.of_perm (perm reorders)).unites
    exact ⟨entry', (registered reorders).trans made', TypeEntry.sameUpToOrder given (perm reorders) made made'
      fun _ _ _ found found' => united.sameButExternal united' (perm reorders) found found'⟩
  · intro same
    refine TypeEntry.marksAlike_of_sameUpToOrder (a := entry) given fun ys perm => ?_
    obtain ⟨others, reorders, rfl⟩ := exists_reorders perm
    obtain ⟨entry', found, alike⟩ := same others reorders
    exact ⟨entry', (registered reorders).symm.trans found, alike⟩
  · intro alike others reorders
    obtain ⟨entry', made', united'⟩ := (given.of_perm (perm reorders)).unites
    exact ⟨entry', (registered reorders).trans made', TypeEntry.sameUpToOrder given (perm reorders) made made'
      fun _ _ _ found found' => united.eq_of_marksAlike united' (perm reorders) alike found found'⟩

/-- An object that is extended before it is defined, with directives on the definition. -/
def extendedFirst (applied : List Directive) : List Statement :=
  let field (name : String) : FieldDefinition := ⟨name, none, [], .named "Int" false, []⟩
  [.extendType ⟨"T", none, [], .object [] [field "b"]⟩, .define (.type ⟨"T", none, applied, .object [] [field "a"]⟩)]

/-- A definition with a key may come after the extension as well as before it. -/
theorem registered_reordered_key : ∃ entry,
    (Assembly.of "s" 16 (extendedFirst [⟨Vocabulary.key, [(Vocabulary.fields, .string "a")]⟩])).types.get? "T" =
      some entry ∧
    entry.extension = .byKeyword ∧
    ∀ others, Reorders "T" (extendedFirst [⟨Vocabulary.key, [(Vocabulary.fields, .string "a")]⟩]) others →
      ∃ entry', (Assembly.of "s" 16 others).types.get? "T" = some entry' ∧ entry.SameUpToOrder Eq entry' := by
  have given : Sighting.BaseWithExtensions
      (Setting.of "s" 16 (extendedFirst [⟨Vocabulary.key, [(Vocabulary.fields, .string "a")]⟩])).1
      (Sighting.all (extendedFirst [⟨Vocabulary.key, [(Vocabulary.fields, .string "a")]⟩]) "T") := by
    decide +kernel
  obtain ⟨entry, registered, united, -, same⟩ := registered_reordered_iff "s" 16 given
  exact ⟨entry, registered, united.extension.mpr (by decide +kernel), same.mpr (by decide +kernel)⟩

/-- Of a type that is marked as external, an extension after the mark has external fields, and one before it has not. -/
theorem registered_not_reordered_external :
    Sighting.BaseWithExtensions (Setting.of "s" 16 (extendedFirst [⟨Vocabulary.external, []⟩])).1
      (Sighting.all (extendedFirst [⟨Vocabulary.external, []⟩]) "T") ∧
    Reorders "T" (extendedFirst [⟨Vocabulary.external, []⟩]) (extendedFirst [⟨Vocabulary.external, []⟩]).reverse ∧
    ¬ ∃ entry entry',
      (Assembly.of "s" 16 (extendedFirst [⟨Vocabulary.external, []⟩])).types.get? "T" = some entry ∧
      (Assembly.of "s" 16 (extendedFirst [⟨Vocabulary.external, []⟩]).reverse).types.get? "T" = some entry' ∧
      entry.SameUpToOrder Eq entry' := by
  have early : ((Assembly.of "s" 16 (extendedFirst [⟨Vocabulary.external, []⟩])).types.get? "T").any (fun entry =>
      (entry.fields.get? "b").any fun field => !field.isExternal) = true := by
    decide +kernel
  have late : ((Assembly.of "s" 16 (extendedFirst [⟨Vocabulary.external, []⟩]).reverse).types.get? "T").any
      (fun entry => (entry.fields.get? "b").any Field.isExternal) = true := by
    decide +kernel
  refine ⟨by decide +kernel, ⟨(List.reverse_perm _).symm, rfl⟩, ?_⟩
  rintro ⟨entry, entry', registered, registered', same⟩
  rw [registered, Option.any_some, Option.any_eq_true] at early
  rw [registered', Option.any_some, Option.any_eq_true] at late
  obtain ⟨field, found, own⟩ := early
  obtain ⟨field', found', external⟩ := late
  rw [same.fields.values _ _ _ found found', external] at own
  exact Bool.noConfusion own

end Federation
