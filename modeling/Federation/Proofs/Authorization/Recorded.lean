import Federation.Proofs.Authorization.Contribution

/-!
# Which types have records

Records are kept for registered types. What is declared and what types and leaf types pass on is recorded under
canonical names, and what interfaces pass on under the own names of the types that implement them. No record is ever
dropped.
-/

namespace Federation.Authorization

open Schema

namespace Ledger

/-- Whether a ledger has the records of another and beside them only records for the given names. -/
structure Widens (names : String → Prop) (before after : Ledger) : Prop where
  kept : ∀ name ∈ before.records.keys, name ∈ after.records.keys
  only : ∀ name ∈ after.records.keys, name ∈ before.records.keys ∨ names name

variable {names : String → Prop} (limit : Nat)

namespace Widens

theorem refl (l : Ledger) : Widens names l l := ⟨fun _ => id, fun _ => Or.inl⟩

theorem trans {a b c : Ledger} (first : Widens names a b) (second : Widens names b c) : Widens names a c :=
  ⟨fun name member => second.kept name (first.kept name member),
    fun name member => (second.only name member).elim (first.only name) Or.inr⟩

theorem foldl {α : Type} {step : Ledger → α → Ledger} {xs : List α}
    (one : ∀ l, ∀ x ∈ xs, Widens names l (step l x)) (l : Ledger) : Widens names l (xs.foldl step l) :=
  List.foldlRecOn xs step (refl l) fun l' before x member => before.trans (one l' x member)

end Widens

/-- Whether no record is dropped. -/
abbrev Keeps (before after : Ledger) : Prop := Widens (fun _ => True) before after

/-- What one step records is there in the end. -/
theorem Keeps.mem_foldl {α : Type} {step : Ledger → α → Ledger} {xs : List α} {name : String}
    (one : ∀ l, ∀ x ∈ xs, Keeps l (step l x)) {x : α} (member : x ∈ xs) {l : Ledger}
    (recorded : ∀ l', Keeps l l' → name ∈ (step l' x).records.keys) : name ∈ (xs.foldl step l).records.keys := by
  obtain ⟨earlier, later, rfl⟩ := List.append_of_mem member
  rw [List.foldl_append, List.foldl_cons]
  have before : Keeps l (earlier.foldl step l) :=
    .foldl (fun l x member => one l x (List.mem_append_left _ member)) l
  have after (l : Ledger) : Keeps l (later.foldl step l) :=
    .foldl (fun l x member => one l x (List.mem_append_right _ (List.mem_cons_of_mem _ member))) l
  exact (after _).kept name (recorded _ before)

theorem widens_update (l : Ledger) {owner : String} (named : names owner) (f : Record → Record) :
    Widens names l { l with records := l.records.update owner f } where
  kept _ member := Table.mem_keys_upsert.mpr (Or.inl member)
  only name member := (Table.mem_keys_upsert.mp member).imp id fun same : name = owner => same ▸ named

theorem widens_conjoinField (path field : String) (r : Requirement) (l : Ledger) {owner : String}
    (named : names owner) : Widens names l (l.conjoinField limit path owner field r) :=
  ⟨(widens_update l named _).kept, (widens_update l named _).only⟩

theorem widens_coverFields (typeName : String) (fields : List String) (r : Requirement) (l : Ledger) {owner : String}
    (named : names owner) : Widens names l (l.coverFields limit typeName owner fields r) :=
  (widens_update l named _).trans
    (.foldl (fun l field _ => widens_conjoinField limit _ field r l named) _)

theorem widens_inheritFromType (roots : RootTypes) (l : Ledger) (typeName : String) (entry : TypeEntry)
    (named : names (roots.canonicalName typeName)) :
    Widens names l (l.inheritFromType limit roots typeName entry) := by
  unfold inheritFromType
  split
  · exact .refl l
  split
  · exact .refl l
  · exact ⟨fun _ => id, fun _ => Or.inl⟩
  · exact widens_coverFields limit typeName _ _ l named

theorem widens_inheritFields (fields : List (String × Requirement)) (l : Ledger) {concreteName : String}
    (named : names concreteName) : Widens names l (l.inheritFields limit fields concreteName) :=
  (widens_update l named id).trans (.foldl (fun l field _ => widens_conjoinField limit _ field.1 field.2 l named) _)

theorem widens_inheritFromInterface (concrete : ConcreteTypes) (l : Ledger) (interfaceName : String)
    (named : ∀ name ∈ (concrete.of interfaceName).toList, names name) :
    Widens names l (l.inheritFromInterface limit concrete interfaceName) := by
  unfold inheritFromInterface
  split
  · exact .refl l
  · next record _ =>
    exact .foldl (fun l name member => widens_inheritFields limit record.fields.toList l (named name member)) l

theorem widens_inheritFromLeaf (l : Ledger) (heir : Heir) (named : names heir.canonicalParent) :
    Widens names l (l.inheritFromLeaf limit heir) := by
  unfold inheritFromLeaf
  split
  · split
    · exact .refl l
    · exact widens_conjoinField limit _ heir.field _ l named
  · exact .refl l

section Consolidate

variable (roots : RootTypes) (types : Registry) (concrete : ConcreteTypes) (l : Ledger)
  (ofTypes : ∀ typeName ∈ types.keys, names (roots.canonicalName typeName))
  (ofInterfaces : ∀ i ∈ coveringInterfaces limit types, ∀ name ∈ (concrete.of i).toList, names name)

include ofTypes in
theorem widens_afterTypes : Widens names l (l.afterTypes limit roots types) :=
  .foldl (fun l e member =>
    widens_inheritFromType limit roots l e.1 e.2 (ofTypes e.1 (List.mem_map_of_mem member))) l

include ofInterfaces in
theorem widens_afterInterfaces : Widens names l (l.afterInterfaces limit types concrete) :=
  .foldl (fun l i member => widens_inheritFromInterface limit concrete l i (ofInterfaces i member)) l

include ofTypes ofInterfaces in
theorem widens_consolidate (ofLeaves : ∀ heir ∈ l.heirs, names heir.canonicalParent) :
    Widens names l (l.consolidate limit roots types concrete) := by
  have first := widens_afterTypes limit roots types l ofTypes
  have second := widens_afterInterfaces limit types concrete (l.afterTypes limit roots types) ofInterfaces
  have heirs : ((l.afterTypes limit roots types).afterInterfaces limit types concrete).heirs = l.heirs :=
    (sameTypes_afterInterfaces limit types concrete _).heirs.trans (leafTypes_afterTypes limit roots types l).2
  have third : Widens names _ (List.foldl (inheritFromLeaf limit) _ l.heirs) :=
    .foldl (fun l heir member => widens_inheritFromLeaf limit l heir (ofLeaves heir member))
      ((l.afterTypes limit roots types).afterInterfaces limit types concrete)
  rw [← heirs] at third
  have all := (first.trans second).trans third
  exact ⟨all.kept, all.only⟩

end Consolidate

theorem mem_records_coverFields (typeName owner : String) (fields : List String) (r : Requirement) (l : Ledger) :
    owner ∈ (l.coverFields limit typeName owner fields r).records.keys := by
  have passed (l : Ledger) : Keeps l
      (fields.foldl (fun l field => l.conjoinField limit s!"{typeName}.{field}" owner field r) l) :=
    .foldl (fun l field _ => widens_conjoinField limit _ field r l trivial) l
  exact (passed _).kept owner (Table.mem_keys_upsert.mpr (Or.inr rfl))

theorem mem_records_inheritFields (fields : List (String × Requirement)) (l : Ledger) (concreteName : String) :
    concreteName ∈ (l.inheritFields limit fields concreteName).records.keys := by
  have passed (l : Ledger) : Keeps l
      (fields.foldl (fun l e => l.conjoinField limit s!"{concreteName}.{e.1}" concreteName e.1 e.2) l) :=
    .foldl (fun l e _ => widens_conjoinField limit _ e.1 e.2 l trivial) l
  exact (passed _).kept concreteName (Table.mem_keys_upsert.mpr (Or.inr rfl))

section Handed

variable (roots : RootTypes) (types : Registry) (concrete : ConcreteTypes) (l : Ledger) {interfaceName name : String}
  (covering : interfaceName ∈ coveringInterfaces limit types)

include covering

theorem mem_records_afterTypes (canonical : roots.canonicalName interfaceName = interfaceName) :
    interfaceName ∈ (l.afterTypes limit roots types).records.keys := by
  obtain ⟨⟨typeName, entry⟩, listed, covers⟩ := List.mem_filterMap.mp covering
  refine Keeps.mem_foldl (fun l e _ => widens_inheritFromType limit roots l e.1 e.2 trivial) listed fun l' _ => ?_
  dsimp only at covers ⊢
  split at covers
  · next kind level =>
    obtain rfl := Option.some.inj covers
    obtain ⟨_, _, _, _, shape⟩ := entry
    cases shape with
    | interface c =>
      simp only [inheritFromType, TypeEntry.composite?, Shape.composite?, level, canonical]
      exact mem_records_coverFields limit typeName typeName c.fields.keys _ l'
    | enum | inputObject | object | scalar | union => exact absurd kind (by simp [TypeEntry.kind, Shape.kind])
  · cases covers

theorem mem_records_afterInterfaces (recorded : interfaceName ∈ l.records.keys)
    (implements : name ∈ (concrete.of interfaceName).toList) :
    name ∈ (l.afterInterfaces limit types concrete).records.keys := by
  refine Keeps.mem_foldl (fun l i _ => widens_inheritFromInterface limit concrete l i fun _ _ => trivial) covering
    fun l' wider => ?_
  obtain ⟨record, found⟩ := Table.exists_get?_of_mem_keys (wider.kept interfaceName recorded)
  unfold inheritFromInterface
  rw [found]
  exact Keeps.mem_foldl (fun l name _ => widens_inheritFields limit record.fields.toList l trivial) implements
    fun l'' _ => mem_records_inheritFields limit record.fields.toList l'' name

/-- A type that implements an interface with a requirement of its own has a record under its own name. -/
theorem mem_records_consolidate (canonical : roots.canonicalName interfaceName = interfaceName)
    (implements : name ∈ (concrete.of interfaceName).toList) :
    name ∈ (l.consolidate limit roots types concrete).records.keys := by
  have passed := mem_records_afterInterfaces limit types concrete (l.afterTypes limit roots types) covering
    (mem_records_afterTypes limit roots types l covering canonical) implements
  have rest (heirs : List Heir) (l : Ledger) : Keeps l (heirs.foldl (inheritFromLeaf limit) l) :=
    .foldl (fun l heir _ => widens_inheritFromLeaf limit l heir trivial) l
  exact (rest _ _).kept name passed

end Handed

/-! ## Declarations -/

end Ledger

/-- The canonical name of the type that a host belongs to or is. -/
def Host.owner : Host → String
  | field _ canonicalParent _ => canonicalParent
  | leaf typeName => typeName

namespace Ledger

variable {names : String → Prop} (limit : Nat)

theorem widens_declare (host : Host) (applied : List Directive) (l : Ledger) (named : names host.owner) :
    Widens names l (l.declare limit host applied) := by
  rw [declare_eq]
  cases Declared.on limit applied with
  | nothing => exact .refl l
  | overLimit => exact ⟨fun _ => id, fun _ => Or.inl⟩
  | requirement r =>
    cases host with
    | field parent canonicalParent name => exact widens_update l named _
    | leaf typeName => exact ⟨(widens_update l named _).kept, (widens_update l named _).only⟩

theorem widens_declareAll {ds : List (Host × List Directive)} (named : ∀ d ∈ ds, names d.1.owner) (l : Ledger) :
    Widens names l (l.declareAll limit ds) :=
  .foldl (fun l d member => widens_declare limit d.1 d.2 l (named d member)) l

end Ledger

end Federation.Authorization

namespace Federation

open Schema
open Authorization

/-- A registered type gives a record its canonical or its own name. -/
def Assembly.Names (a : Assembly) (name : String) : Prop :=
  ∃ typeName ∈ a.types.keys, name = a.setting.roots.canonicalName typeName ∨ name = typeName

namespace Assembly

variable {a : Assembly} {past : List Look} (coherent : Survey.Coherent a.setting past a.survey)

include coherent

theorem names_of_declaration {d : Host × List Directive} (member : d ∈ past.flatMap (Look.declarations a.setting)) :
    a.Names d.1.owner := by
  obtain ⟨l, listed, found⟩ := List.mem_flatMap.mp member
  -- A leaf type has its own name and a field the canonical name of its parent; nothing else declares.
  cases l with
  | type isExtension t =>
    dsimp only [Look.declarations] at found
    split at found
    · obtain rfl := List.mem_singleton.mp found
      exact ⟨t.name, mem_keys_of_kind? (coherent.registered isExtension t listed), .inr rfl⟩
    · exact absurd found List.not_mem_nil
  | field isExtension t f =>
    dsimp only [Look.declarations] at found
    split at found
    · exact absurd found List.not_mem_nil
    · next unserved =>
      obtain rfl := List.mem_singleton.mp found
      have known := (coherent.fields t.name f.name).mpr
        ⟨isExtension, t, f, listed, rfl, rfl, Bool.eq_false_iff.mpr unserved⟩
      obtain ⟨entry, c, registered, -⟩ := exists_of_field? known
      exact ⟨t.name, Table.mem_keys_of_get? registered, .inl rfl⟩
  | schema | enumValue | inputValue => exact absurd found List.not_mem_nil

theorem names_of_concrete {interfaceName name : String}
    (covering : interfaceName ∈ coveringInterfaces a.setting.maxOrScopes a.survey.types)
    (concrete : name ∈ (a.survey.concrete.of interfaceName).toList) : a.Names name := by
  have covers : interfaceName ∈ a.types.keys.filter a.covers := coveringInterfaces_eq ▸ covering
  have interface := Valid.kind?_of_covers (List.mem_filter.mp covers).2
  rcases (coherent.concrete interfaceName name).mp concrete with ⟨union, -⟩ | implemented
  · exact absurd (interface.symm.trans union) (by decide)
  · exact ⟨name, mem_keys_of_kind? (Survey.mem_implemented.mp implemented).1, .inr rfl⟩

theorem names_of_heir {heir : Heir} (member : heir ∈ a.survey.ledger.heirs) : a.Names heir.canonicalParent := by
  have here : heir ∈ a.survey.ledger.heirs.filter fun h => h.parent = heir.parent ∧ h.field = heir.field :=
    List.mem_filter.mpr ⟨member, decide_eq_true ⟨rfl, rfl⟩⟩
  rw [coherent.heirs heir.parent heir.field] at here
  obtain ⟨field, found, same⟩ := List.mem_map.mp here
  obtain ⟨entry, c, registered, -⟩ := exists_of_field? (Option.isSome_iff_exists.mpr ⟨field, by simpa using found⟩)
  exact ⟨heir.parent, Table.mem_keys_of_get? registered, .inl (congrArg Heir.canonicalParent same).symm⟩

/-- Records are those of registered types. -/
theorem names_of_record (ledger : a.ledger =
      a.survey.ledger.consolidate a.setting.maxOrScopes a.setting.roots a.survey.types a.survey.concrete)
    {name : String} (recorded : name ∈ a.ledger.records.keys) : a.Names name := by
  -- First what the walk has declared, then what is inherited in the end.
  have surveyed : Ledger.Widens a.Names .empty a.survey.ledger := by
    have all := Ledger.widens_declareAll a.setting.maxOrScopes (fun _ => names_of_declaration coherent) .empty
    rw [coherent.declared]
    exact ⟨all.kept, all.only⟩
  have inherited := Ledger.widens_consolidate a.setting.maxOrScopes a.setting.roots a.survey.types a.survey.concrete
    a.survey.ledger (fun typeName registered => ⟨typeName, registered, .inl rfl⟩)
    (fun _ covering _ => names_of_concrete coherent covering) fun _ => names_of_heir coherent
  rw [ledger] at recorded
  exact ((surveyed.trans inherited).only name recorded).resolve_left List.not_mem_nil

end Assembly

end Federation
