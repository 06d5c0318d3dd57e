import Federation.Proofs.Permutation.Beside
import Federation.Proofs.Permutation.Setting
import Federation.Proofs.Registry.Growth
import Federation.Proofs.Renaming.Exchange

/-!
# A survey as the sum of its definitions

Where each type is defined once, a survey finds an error just where it would find one looking at some definition alone,
and without errors it has noted what it would note of each definition alone. So it notes the same in every order.
-/

namespace Federation

open Schema

/-- The type before the dot of its field's coordinates can be told from them. -/
theorem coordinates_injective {parent parent' field field' : String} (plain : '.' ∉ parent.toList)
    (plain' : '.' ∉ parent'.toList) (same : coordinates parent field = coordinates parent' field') :
    parent = parent' := by
  have head (parent field : String) (plain : '.' ∉ parent.toList) :
      (coordinates parent field).toList.takeWhile (· ≠ '.') = parent.toList := by
    have dotted : (coordinates parent field).toList = parent.toList ++ '.' :: field.toList := by
      change (parent ++ "." ++ field).toList = _
      simp
    rw [dotted, takeWhile_append_dot, takeWhile_of_plain plain]
  rw [← String.toList_inj, ← head parent field plain, same, head parent' field' plain']

namespace Schema.Document

variable {past rest : Document}

theorem DefinesOnce.of_append (once : (past ++ rest).DefinesOnce) : past.DefinesOnce := by
  have sublist : past.Sublist (past ++ rest) := List.sublist_append_left past rest
  exact ⟨((sublist.filterMap _).map _).nodup once.types, ((sublist.filterMap _).map _).nodup once.directives,
    (sublist.filterMap _).length_le.trans once.schemas⟩

/-- A type that is defined is not defined before. -/
theorem DefinesOnce.notMem_types {t : TypeDefinition} (once : (past ++ .type t :: rest).DefinesOnce) :
    t.name ∉ past.types.map TypeDefinition.name := by
  have names := once.types
  have parts : (past ++ Definition.type t :: rest).types = past.types ++ t :: Document.types rest :=
    List.filterMap_append
  rw [parts, List.map_append] at names
  exact fun member => (List.nodup_append.mp names).2.2 t.name member t.name List.mem_cons_self rfl

theorem DefinesOnce.schemas_eq_nil {d : SchemaDefinition} (once : (past ++ .schema d :: rest).DefinesOnce) :
    past.schemas = [] := by
  have few := once.schemas
  have parts : (past ++ Definition.schema d :: rest).schemas = past.schemas ++ d :: Document.schemas rest :=
    List.filterMap_append
  rw [parts, List.length_append, List.length_cons] at few
  exact List.eq_nil_of_length_eq_zero (by omega)

end Schema.Document

namespace Survey

/-- What is known where nothing but one definition is looked at. -/
def alone (setting : Setting) (x : Definition) : Survey := (start []).step setting (.define x)

/-- What a survey without errors has noted beside the types and requirements themselves is what it would note of each
definition alone. -/
structure Gathers (setting : Setting) (past : Document) (s : Survey) : Prop where
  repeats : s.repeats = .empty
  schema : past.schemas = [] → s.schemaDirectives = .empty
  registered : ∀ name ∈ s.types.keys, name ∈ past.types.map TypeDefinition.name
  fieldSets : ∀ name sets,
    s.fieldSets.get? name = some sets ↔ ∃ x ∈ past, (alone setting x).fieldSets.get? name = some sets
  filters : ∀ path isSubscription,
    s.filters.get? path = some isSubscription ↔ ∃ x ∈ past, (alone setting x).filters.get? path = some isSubscription
  referenced : ∀ name, name ∈ s.referenced.toList ↔ ∃ x ∈ past, name ∈ (alone setting x).referenced.toList
  externals : ∀ path, path ∈ s.externals.toList ↔ ∃ x ∈ past, path ∈ (alone setting x).externals.toList
  bindings : ∀ name, s.bindings.getD name [] = past.flatMap fun x => (alone setting x).bindings.getD name []

variable {setting : Setting} {past : Document} {s : Survey}

theorem gathers_start (setting : Setting) : Gathers setting [] (start []) := by
  constructor <;> simp [start, Table.keys, Table.getD]

/-! ## One definition alone -/

/-- A definition that is no type leaves these untouched. -/
theorem beside_alone_type (t : TypeDefinition) :
    Beside t.name (start []) (alone setting (.type t)) (alone setting (.type t)) :=
  have begun : Beside t.name (start []) (start []) (start []) := beside_start rfl rfl rfl
  begun.sightType false t rfl

theorem type_of_fieldSets {x : Definition} {name : String} (member : name ∈ (alone setting x).fieldSets.keys) :
    ∃ t, x = .type t ∧ t.name = name := by
  cases x with
  | type t => exact ⟨t, rfl, ((beside_alone_type t).ownFieldSets name member).symm⟩
  | schema | directive => exact absurd member List.not_mem_nil

theorem type_of_filters {x : Definition} {path : String} (member : path ∈ (alone setting x).filters.keys) :
    ∃ t field, x = .type t ∧ path = coordinates t.name field := by
  cases x with
  | type t =>
    obtain ⟨field, same⟩ := (beside_alone_type t).ownFilters path member
    exact ⟨t, field, rfl, same⟩
  | schema | directive => exact absurd member List.not_mem_nil

theorem mem_types_of_mem {t : TypeDefinition} (member : Definition.type t ∈ past) :
    t.name ∈ past.types.map TypeDefinition.name :=
  List.mem_map.mpr ⟨t, List.mem_filterMap.mpr ⟨.type t, member, rfl⟩, rfl⟩

namespace Gathers

variable (before : Gathers setting past s)

include before

theorem unseen {name : String} (new : name ∉ past.types.map TypeDefinition.name) :
    s.fieldSets.get? name = none := by
  refine Option.eq_none_iff_forall_ne_some.mpr fun sets found => new ?_
  obtain ⟨x, member, own⟩ := (before.fieldSets name sets).mp found
  obtain ⟨t, rfl, rfl⟩ := type_of_fieldSets (Table.mem_keys_of_get? own)
  exact mem_types_of_mem member

/-- No filter is noted under the coordinates of a type that was not seen. -/
theorem unfiltered {t : TypeDefinition} {field : String} (new : t.name ∉ past.types.map TypeDefinition.name)
    (plain : ∀ t' ∈ t :: past.types, '.' ∉ t'.name.toList) :
    s.filters.get? (coordinates t.name field) = none := by
  refine Option.eq_none_iff_forall_ne_some.mpr fun isSubscription found => new ?_
  obtain ⟨x, member, own⟩ := (before.filters _ _).mp found
  obtain ⟨t', field', rfl, same⟩ := type_of_filters (Table.mem_keys_of_get? own)
  have listed : t' ∈ past.types := List.mem_filterMap.mpr ⟨.type t', member, rfl⟩
  have named := coordinates_injective (plain t List.mem_cons_self) (plain t' (List.mem_cons_of_mem t listed)) same
  exact named ▸ mem_types_of_mem member

/-- Where the schema was not seen before, it is looked at as if nothing were known, and so is every type. -/
theorem adds {x : Definition} {rest : Document} (once : (past ++ x :: rest).DefinesOnce) :
    Adds s (alone setting x) (s.step setting (.define x)) := by
  cases x with
  | directive d => exact adds_start before.repeats
  | type t =>
    have new := once.notMem_types
    have unregistered : s.types.get? t.name = none :=
      Table.get?_eq_none_iff.mpr fun known => new (before.registered t.name known)
    exact ((beside_start before.repeats unregistered (before.unseen new)).sightType false t rfl).toAdds
  | schema d =>
    unfold alone step sightSchema takeIn
    dsimp only
    rw [before.repeats, before.schema once.schemas_eq_nil]
    exact { adds_start before.repeats with errors := rfl, repeats := rfl }

theorem schemaDirectives_step {x : Definition} (none : (past ++ [x]).schemas = []) :
    (s.step setting (.define x)).schemaDirectives = .empty := by
  have parts : (past ++ [x]).schemas = past.schemas ++ Document.schemas [x] := List.filterMap_append
  rw [parts, List.append_eq_nil_iff] at none
  cases x with
  | directive d => exact before.schema none.1
  | type t =>
    have written := writes_sightType setting s false t
    exact (written.same .schemaDirectives (by decide)).trans (before.schema none.1)
  | schema d => exact absurd none.2 (List.cons_ne_nil _ _)

theorem registered_step {x : Definition} :
    ∀ name ∈ (s.step setting (.define x)).types.keys, name ∈ (past ++ [x]).types.map TypeDefinition.name := by
  intro name known
  have parts : (past ++ [x]).types = past.types ++ Document.types [x] := List.filterMap_append
  rw [parts, List.map_append]
  cases x with
  | directive d => exact List.mem_append_left _ (before.registered name known)
  | schema d => exact List.mem_append_left _ (before.registered name known)
  | type t =>
    by_cases here : name = t.name
    · exact List.mem_append_right _ (List.mem_singleton.mpr here)
    · have older : s.types.get? name = (s.step setting (.define (.type t))).types.get? name := by
        refine ((get?_sightType setting s false t name).trans (if_neg ?_)).symm
        simp [Ne.symm here]
      have found := Table.get?_isSome_iff.mpr known
      rw [← older, Table.get?_isSome_iff] at found
      exact List.mem_append_left _ (before.registered name found)

/-- One more definition that makes no error is noted beside the others. -/
theorem step {x : Definition} {rest : Document} (once : (past ++ x :: rest).DefinesOnce)
    (plain : ∀ t ∈ (past ++ x :: rest).types, '.' ∉ t.name.toList) (clean : (alone setting x).errors = []) :
    Gathers setting (past ++ [x]) (s.step setting (.define x)) := by
  have added := before.adds once
  have either {P : Definition → Prop} : (∃ y ∈ past ++ [x], P y) ↔ (∃ y ∈ past, P y) ∨ P x := by
    simp [or_and_right, exists_or]
  constructor
  case repeats => exact added.repeats.trans ((grows_step setting (start []) (.define x)).repeats clean)
  case schema => exact before.schemaDirectives_step
  case registered => exact before.registered_step
  case fieldSets =>
    intro name sets
    rw [added.fieldSets, either, ← before.fieldSets, Option.or_eq_some_iff, or_comm]
    refine or_congr_left (and_iff_right_of_imp fun found => ?_)
    -- The definition at hand has field sets for its own type only, and of this nothing was known.
    refine Option.eq_none_iff_forall_ne_some.mpr fun own noted => ?_
    obtain ⟨t, rfl, rfl⟩ := type_of_fieldSets (Table.mem_keys_of_get? noted)
    exact Option.some_ne_none _ (found.symm.trans (before.unseen once.notMem_types))
  case filters =>
    intro path isSubscription
    rw [added.filters, either, ← before.filters, Option.or_eq_some_iff, or_comm]
    refine or_congr_left (and_iff_right_of_imp fun found => ?_)
    refine Option.eq_none_iff_forall_ne_some.mpr fun own noted => ?_
    obtain ⟨t, field, rfl, rfl⟩ := type_of_filters (Table.mem_keys_of_get? noted)
    have parts : (past ++ Definition.type t :: rest).types = past.types ++ t :: Document.types rest :=
      List.filterMap_append
    rw [parts] at plain
    refine Option.some_ne_none _ (found.symm.trans (before.unfiltered once.notMem_types fun t' listed => plain t' ?_))
    rcases List.mem_cons.mp listed with rfl | older
    · exact List.mem_append_right _ List.mem_cons_self
    · exact List.mem_append_left _ older
  case referenced => exact fun name => by rw [added.referenced, either, ← before.referenced]
  case externals => exact fun path => by rw [added.externals, either, ← before.externals]
  case bindings => exact fun name => by simp [added.bindings, before.bindings]

end Gathers

/-! ## All definitions -/

/-- A survey finds an error just where some definition makes one alone, and otherwise it gathers what they note. -/
theorem gathers_foldl {rest : Document} (once : (past ++ rest).DefinesOnce)
    (plain : ∀ t ∈ (past ++ rest).types, '.' ∉ t.name.toList) (clean : s.errors = [])
    (before : Gathers setting past s) :
    (((rest.map Statement.define).foldl (step setting) s).errors = [] ↔ ∀ x ∈ rest, (alone setting x).errors = []) ∧
      (((rest.map Statement.define).foldl (step setting) s).errors = [] →
        Gathers setting (past ++ rest) ((rest.map Statement.define).foldl (step setting) s)) := by
  induction rest generalizing past s with
  | nil => exact ⟨iff_of_true clean nofun, fun _ => by simpa using before⟩
  | cons x rest ih =>
    have errors := (before.adds once).errors
    rw [clean, List.nil_append] at errors
    rw [List.map_cons, List.foldl_cons, List.forall_mem_cons]
    -- What this definition reports by itself is what is reported here, since nothing was before.
    by_cases quiet : (alone setting x).errors = []
    · have later := @ih (past ++ [x]) (s.step setting (.define x)) (by simpa using once) (by simpa using plain)
        (errors.trans quiet) (before.step once plain quiet)
      rw [List.append_assoc, List.singleton_append] at later
      exact ⟨later.1.trans (and_iff_right quiet).symm, later.2⟩
    · -- An error that is made here stays to the end.
      have reported : ((rest.map Statement.define).foldl (step setting) (s.step setting (.define x))).errors ≠ [] :=
        fun none => quiet (errors.symm.trans ((Grows.foldl _ (grows_step setting) _ _).clean none))
      exact ⟨iff_of_false reported fun all => quiet all.1, fun none => absurd none reported⟩

variable {document others : Document} {errors : List Error}

theorem errors_walk_iff (once : document.DefinesOnce) (plain : ∀ t ∈ document.types, '.' ∉ t.name.toList) :
    (walk setting errors (document.map .define)).errors = [] ↔
      errors = [] ∧ ∀ x ∈ document, (alone setting x).errors = [] := by
  by_cases quiet : errors = []
  · subst quiet
    have all := @gathers_foldl setting [] (start []) document once plain rfl (gathers_start setting)
    exact all.1.trans (and_iff_right rfl).symm
  · refine iff_of_false (fun none => quiet ?_) fun all => quiet all.1
    exact (Grows.foldl _ (grows_step setting) _ (start errors)).clean none

theorem gathers_walk (once : document.DefinesOnce) (plain : ∀ t ∈ document.types, '.' ∉ t.name.toList)
    (clean : (walk setting errors (document.map .define)).errors = []) :
    Gathers setting document (walk setting errors (document.map .define)) := by
  obtain ⟨rfl, -⟩ := (errors_walk_iff once plain).mp clean
  exact (@gathers_foldl setting [] (start []) document once plain rfl (gathers_start setting)).2 clean

end Survey

end Federation
