import Federation.Proofs.Renaming.Setting

/-!
# A schema that declares the new name

Before the definition of the schema that declares the new name of a root type, root types are renamed and nothing
else; after it the type is declared. The setting of a text and that of the renamed text are alike in the end.
-/

namespace Federation

open Schema

variable {ρ : Renaming} {own : Operation}

/-! ## Declarations of root types -/

namespace RootTypes

variable (roots : RootTypes) (operation : Operation) (typeName : String)

theorem byOperation_declare (other : Operation) : (roots.declare operation typeName).byOperation.get? other =
    if other = operation then some ((roots.byOperation.get? operation).getD typeName)
    else roots.byOperation.get? other := by
  unfold declare Table.contains
  cases known : roots.byOperation.get? operation with
  | none =>
    have absent := Table.get?_eq_none_iff.mp known
    simp [absent]
  | some existing =>
    have present := Table.mem_keys_of_get? known
    by_cases same : other = operation
    · simp [present, same, known]
    · simp [present, same]

theorem byTypeName_declare (other : String) : (roots.declare operation typeName).byTypeName.get? other =
    if roots.byOperation.get? operation = none ∧ other = typeName then some operation
    else roots.byTypeName.get? other := by
  unfold declare Table.contains
  cases known : roots.byOperation.get? operation with
  | none =>
    have absent := Table.get?_eq_none_iff.mp known
    simp [absent]
  | some existing =>
    have present := Table.mem_keys_of_get? known
    simp [present]

variable {roots operation}

/-- An operation that yields its default name does so until a root type is declared for it. -/
theorem Yields.declare {yielding : Operation} (h : roots.Yields ρ own yielding)
    (spared : ρ own.defaultTypeName ≠ operation.defaultTypeName) :
    (roots.declare operation typeName).Yields ρ own yielding where
  gained := h.gained
  byOperation := by
    rw [byOperation_declare, if_neg, h.byOperation]
    rintro rfl
    exact spared h.gained
  byTypeName name := by
    rw [byTypeName_declare]
    split
    · exact fun same => spared (Option.some.inj same ▸ h.gained)
    · exact h.byTypeName name

end RootTypes

namespace Overview

theorem declareRoot_fst (operation : Operation) (typeName : String) (roots : RootTypes) :
    (declareRoot operation typeName roots).1 = roots.declare operation typeName := by
  unfold declareRoot
  split
  · next existing known => simp [RootTypes.declare, Table.contains_iff.mpr (Table.mem_keys_of_get? known)]
  · rfl

theorem declareRoot_quiet {operation : Operation} {typeName : String} {roots : RootTypes} :
    (declareRoot operation typeName roots).2 = [] ↔
      ∀ existing, roots.byOperation.get? operation = some existing → existing = typeName := by
  unfold declareRoot
  split
  · next existing known => simp [known]
  · next unknown => simp [unknown]

/-- The root types that a statement declares. -/
def rootsIn : Statement → List (Operation × String)
  | .define (.schema d) | .extendSchema d => rootsOf d
  | .define (.type _) | .define (.directive _) | .extendType _ => []

end Overview

/-- Whether a declaration is for the default root type of an operation or not about it, and does not bring back the
default name of an operation that the root type has now. -/
def Renaming.Spares (ρ : Renaming) (own : Operation) (declared : Operation × String) : Prop :=
  (declared.1 = own ↔ declared.2 = own.defaultTypeName) ∧ ρ own.defaultTypeName ≠ declared.1.defaultTypeName

/-! ## Before the new name is declared -/

/-- Root types before and after a renaming, as long as no schema declares the new name of its own. -/
structure RootTypes.Renamed (ρ : Renaming) (own : Operation) (roots roots' : RootTypes) : Prop where
  others : ∀ operation, operation ≠ own →
    ρ operation.defaultTypeName = operation.defaultTypeName ∨ roots.Yields ρ own operation
  byOperation : ∀ operation, roots'.byOperation.get? operation = (roots.byOperation.get? operation).map ρ
  byTypeName : ∀ name, roots'.byTypeName.get? (ρ name) = roots.byTypeName.get? name
  declared : ∀ name, roots.byOperation.get? own = some name →
    name = own.defaultTypeName ∧ roots.byTypeName.get? own.defaultTypeName = some own
  root : ∀ operation, roots.byTypeName.get? own.defaultTypeName = some operation → operation = own

/-- Whether a relation between root types is kept by declarations that spare the root type of an operation. -/
def RootTypes.KeptByDeclarations (ρ : Renaming) (own : Operation) (R : RootTypes → RootTypes → Prop) : Prop :=
  ∀ roots roots', R roots roots' → ∀ operation typeName, ρ.Spares own (operation, typeName) →
    R (roots.declare operation typeName) (roots'.declare operation (ρ typeName)) ∧
      ((Overview.declareRoot operation (ρ typeName) roots').2 = [] ↔
        (Overview.declareRoot operation typeName roots).2 = [])

theorem RootTypes.Renamed.kept : KeptByDeclarations ρ own (Renamed ρ own) := by
  intro roots roots' h operation typeName ⟨fits, spared⟩
  dsimp only at fits spared
  have known := h.byOperation operation
  refine ⟨⟨fun other different => (h.others other different).imp_right (·.declare typeName spared), fun other => ?_,
    fun other => ?_, fun name found => ?_, fun other found => ?_⟩, ?_⟩
  · rw [byOperation_declare, byOperation_declare, known, h.byOperation other]
    split
    · cases roots.byOperation.get? operation <;> rfl
    · rfl
  · simp only [byTypeName_declare, known, h.byTypeName other, Option.map_eq_none_iff, Renaming.eq_iff]
  · rw [byOperation_declare] at found
    rw [byTypeName_declare]
    split at found
    · next same =>
      subst same
      obtain rfl := fits.mp rfl
      cases earlier : roots.byOperation.get? own with
      | none =>
        rw [earlier] at found
        exact ⟨(Option.some.inj found).symm, if_pos ⟨rfl, rfl⟩⟩
      | some existing =>
        rw [earlier] at found
        have declared := h.declared existing earlier
        exact ⟨(Option.some.inj found).symm.trans declared.1, by simpa using declared.2⟩
    · next other =>
      have different : own.defaultTypeName ≠ typeName := fun same => other (fits.mpr same.symm).symm
      rw [if_neg fun both => different both.2]
      exact h.declared name found
  · rw [byTypeName_declare] at found
    split at found
    · next both => exact (Option.some.inj found).symm.trans (fits.mpr both.2.symm)
    · exact h.root other found
  · rw [Overview.declareRoot_quiet, Overview.declareRoot_quiet, known]
    cases roots.byOperation.get? operation <;> simp

/-! ## After the new name is declared -/

namespace RootTypes.Mirrors

variable {roots roots' : RootTypes} (h : roots.Mirrors ρ own roots')

include h

/-- The operation has the new name already, so its default root type may be declared as well. -/
theorem declare_own : (roots.declare own own.defaultTypeName).Mirrors ρ own
    (roots'.declare own (ρ own.defaultTypeName)) := by
  have declared : roots'.declare own (ρ own.defaultTypeName) = roots' := by
    simp [RootTypes.declare, Table.contains_iff.mpr (Table.mem_keys_of_get? h.declared')]
  rw [declared]
  exact { h with
    others := fun other different => (h.others other different).imp_right
      (·.declare own.defaultTypeName h.moved)
    byOperation := fun other different => by rw [byOperation_declare, if_neg different, h.byOperation other different]
    byTypeName := fun other different => by
      rw [byTypeName_declare, if_neg fun both => different both.2, h.byTypeName other different]
    declared := fun name found => by
      rw [byOperation_declare, if_pos rfl] at found
      cases earlier : roots.byOperation.get? own with
      | none =>
        rw [earlier] at found
        exact (Option.some.inj found).symm
      | some existing =>
        rw [earlier] at found
        exact (Option.some.inj found).symm.trans (h.declared existing earlier)
    root := fun other found => by
      rw [byTypeName_declare] at found
      split at found
      · exact (Option.some.inj found).symm
      · exact h.root other found }

theorem declare_other {operation : Operation} {typeName : String} (same : operation ≠ own)
    (different : typeName ≠ own.defaultTypeName) (spared : ρ own.defaultTypeName ≠ operation.defaultTypeName) :
    (roots.declare operation typeName).Mirrors ρ own (roots'.declare operation (ρ typeName)) := by
  have known := h.byOperation operation same
  exact { h with
    others := fun other different => (h.others other different).imp_right (·.declare typeName spared)
    byOperation := fun other apart => by
      rw [byOperation_declare, byOperation_declare, known, h.byOperation other apart]
      split
      · cases roots.byOperation.get? operation <;> rfl
      · rfl
    byTypeName := fun other apart => by
      simp only [byTypeName_declare, known, h.byTypeName other apart, Option.map_eq_none_iff, Renaming.eq_iff]
    declared := fun name found => by
      rw [byOperation_declare, if_neg (Ne.symm same)] at found
      exact h.declared name found
    root := fun other found => by
      rw [byTypeName_declare, if_neg fun both => different both.2.symm] at found
      exact h.root other found
    declared' := by rw [byOperation_declare, if_neg (Ne.symm same), h.declared']
    root' := by rw [byTypeName_declare, if_neg fun both => different (Renaming.eq_iff.mp both.2).symm, h.root'] }

end RootTypes.Mirrors

theorem RootTypes.Mirrors.kept : KeptByDeclarations ρ own (Mirrors ρ own) := by
  intro roots roots' h operation typeName ⟨fits, spared⟩
  dsimp only at fits spared
  rw [Overview.declareRoot_quiet, Overview.declareRoot_quiet]
  by_cases same : operation = own
  · subst same
    obtain rfl := fits.mp rfl
    refine ⟨h.declare_own, iff_of_true (fun existing found => ?_) h.declared⟩
    exact (Option.some.inj (h.declared'.symm.trans found)).symm
  · refine ⟨h.declare_other same (fun named => same (fits.mpr named)) spared, ?_⟩
    rw [h.byOperation operation same]
    cases roots.byOperation.get? operation <;> simp

/-- The schema declares the new name. -/
theorem RootTypes.Renamed.declare {roots roots' : RootTypes} (h : roots.Renamed ρ own roots')
    (moved : ρ own.defaultTypeName ≠ own.defaultTypeName) :
    roots.Mirrors ρ own (roots'.declare own (ρ own.defaultTypeName)) ∧
      (Overview.declareRoot own (ρ own.defaultTypeName) roots').2 = [] where
  left :=
    { h with
      moved
      byOperation := fun operation different => by rw [byOperation_declare, if_neg different, h.byOperation]
      byTypeName := fun name different => by
        rw [byTypeName_declare, if_neg fun both => different (Renaming.eq_iff.mp both.2), h.byTypeName]
      declared := fun name found => (h.declared name found).1
      declared' := by
        rw [byOperation_declare, if_pos rfl, h.byOperation]
        cases earlier : roots.byOperation.get? own with
        | none => rfl
        | some name => rw [(h.declared name earlier).1]; rfl
      root' := by
        rw [byTypeName_declare, h.byOperation, h.byTypeName]
        cases earlier : roots.byOperation.get? own with
        | none => exact if_pos ⟨rfl, rfl⟩
        | some name => simpa using (h.declared name earlier).2 }
  right := by
    refine Overview.declareRoot_quiet.mpr fun existing found => ?_
    rw [h.byOperation] at found
    obtain ⟨name, earlier, rfl⟩ := Option.map_eq_some_iff.mp found
    rw [(h.declared name earlier).1]

/-! ## Settings of texts -/

namespace Overview

theorem rootsOf_rename (d : SchemaDefinition) : rootsOf (d.rename ρ) = (rootsOf d).map fun e => (e.1, ρ e.2) := by
  simp only [rootsOf, SchemaDefinition.rename, List.find?_map, List.map_filterMap]
  rfl

theorem appliedIn_rename (x : Statement) : appliedIn (x.rename ρ) = appliedIn x := by
  have onField (f : FieldDefinition) : appliedOnField (f.rename ρ) = appliedOnField f := by
    simp only [appliedOnField, FieldDefinition.rename, List.flatMap_map]
    rfl
  have onType (t : TypeDefinition) : appliedOnType (t.rename ρ) = appliedOnType t := by
    obtain ⟨_, _, _, body⟩ := t
    cases body with
    | interface implements fields | object implements fields =>
      simp only [appliedOnType, TypeDefinition.rename, TypeBody.rename, List.flatMap_map, onField]
    | inputObject fields =>
      simp only [appliedOnType, TypeDefinition.rename, TypeBody.rename, List.flatMap_map]
      rfl
    | enum | scalar | union => rfl
  rcases x with (_ | _ | t) | _ | t
  case define.type => exact onType t
  case extendType => exact onType t
  all_goals rfl

/-- What is known of a text and of the renamed text after some of their statements. -/
structure Mirrors (ρ : Renaming) (R : RootTypes → RootTypes → Prop) (acc acc' : Setting × List Error) : Prop where
  subgraph : acc'.1.subgraph = acc.1.subgraph
  maxOrScopes : acc'.1.maxOrScopes = acc.1.maxOrScopes
  applied : acc'.1.applied = acc.1.applied
  roots : R acc.1.roots acc'.1.roots
  customDirectives : acc'.1.customDirectives = acc.1.customDirectives.map fun _ d => d.rename ρ
  errors : acc'.2 = [] ↔ acc.2 = []

variable {R : RootTypes → RootTypes → Prop} (kept : RootTypes.KeptByDeclarations ρ own R)

include kept

theorem declareRoots_rename {roots roots' : RootTypes} (h : R roots roots') (d : SchemaDefinition)
    (spared : ∀ e ∈ rootsOf d, ρ.Spares own e) :
    R (declareRoots roots d).1 (declareRoots roots' (d.rename ρ)).1 ∧
      ((declareRoots roots' (d.rename ρ)).2 = [] ↔ (declareRoots roots d).2 = []) := by
  unfold declareRoots
  rw [rootsOf_rename, List.foldl_map]
  -- From any roots and errors that mirror each other, so that the induction can pass the first root.
  have fold : ∀ acc acc' : RootTypes × List Error, R acc.1 acc'.1 ∧ (acc'.2 = [] ↔ acc.2 = []) →
      R ((rootsOf d).foldl (fun acc e =>
            ((declareRoot e.1 e.2 acc.1).1, acc.2 ++ (declareRoot e.1 e.2 acc.1).2)) acc).1
          ((rootsOf d).foldl (fun acc e =>
            ((declareRoot e.1 (ρ e.2) acc.1).1, acc.2 ++ (declareRoot e.1 (ρ e.2) acc.1).2)) acc').1 ∧
        (((rootsOf d).foldl (fun acc e =>
            ((declareRoot e.1 (ρ e.2) acc.1).1, acc.2 ++ (declareRoot e.1 (ρ e.2) acc.1).2)) acc').2 = [] ↔
          ((rootsOf d).foldl (fun acc e =>
            ((declareRoot e.1 e.2 acc.1).1, acc.2 ++ (declareRoot e.1 e.2 acc.1).2)) acc).2 = []) := by
    revert spared
    induction rootsOf d with
    | nil => exact fun _ _ _ h => h
    | cons e rest ih =>
      intro spared acc acc' h
      have one := kept acc.1 acc'.1 h.1 e.1 e.2 (spared e List.mem_cons_self)
      refine ih (fun e' member => spared e' (List.mem_cons_of_mem e member)) _ _ ⟨?_, ?_⟩
      · rw [declareRoot_fst, declareRoot_fst]
        exact one.1
      · simp only [List.append_eq_nil_iff, one.2, h.2]
  exact fold (roots, []) (roots', []) ⟨h, Iff.rfl⟩

omit kept in
theorem defineDirective_rename (custom : Table String DirectiveDefinition) (d : DirectiveDefinition) :
    (defineDirective (custom.map fun _ d => d.rename ρ) (d.rename ρ)).1 =
        (defineDirective custom d).1.map (fun _ d => d.rename ρ) ∧
      ((defineDirective (custom.map fun _ d => d.rename ρ) (d.rename ρ)).2 = [] ↔
        (defineDirective custom d).2 = []) := by
  unfold defineDirective
  rw [show (d.rename ρ).name = d.name from rfl, Table.contains_map]
  split
  · exact ⟨rfl, Iff.rfl⟩
  split
  · exact ⟨rfl, iff_of_false (List.cons_ne_nil _ _) (List.cons_ne_nil _ _)⟩
  · exact ⟨Table.insert_map custom d.name d, Iff.rfl⟩

theorem Mirrors.step {acc acc' : Setting × List Error} (h : Mirrors ρ R acc acc') (x : Statement)
    (spared : ∀ e ∈ rootsIn x, ρ.Spares own e) :
    Mirrors ρ R (Overview.step acc x) (Overview.step acc' (x.rename ρ)) := by
  have schema (d : SchemaDefinition) (spared : ∀ e ∈ rootsOf d, ρ.Spares own e) :
      Mirrors ρ R ({ acc.1 with roots := (declareRoots acc.1.roots d).1 }, acc.2 ++ (declareRoots acc.1.roots d).2)
        ({ acc'.1 with roots := (declareRoots acc'.1.roots (d.rename ρ)).1 },
          acc'.2 ++ (declareRoots acc'.1.roots (d.rename ρ)).2) := by
    have declared := declareRoots_rename kept h.roots d spared
    exact { h with roots := declared.1, errors := by simp only [List.append_eq_nil_iff, h.errors, declared.2] }
  rcases x with (d | d | t) | d | t
  · have defined := defineDirective_rename (ρ := ρ) acc.1.customDirectives d
    rw [← h.customDirectives] at defined
    exact { h with
      customDirectives := defined.1
      errors := by simp only [Overview.step, Statement.rename, List.append_eq_nil_iff, h.errors, defined.2] }
  · exact schema d spared
  · exact h
  · exact schema d spared
  · exact h

theorem Mirrors.steps {acc acc' : Setting × List Error} (h : Mirrors ρ R acc acc') {statements : List Statement}
    (spared : ∀ x ∈ statements, ∀ e ∈ rootsIn x, ρ.Spares own e) :
    Mirrors ρ R (statements.foldl Overview.step acc) ((statements.map (·.rename ρ)).foldl Overview.step acc') := by
  induction statements generalizing acc acc' with
  | nil => exact h
  | cons x rest ih =>
    exact ih (h.step kept x (spared x List.mem_cons_self)) fun y member => spared y (List.mem_cons_of_mem x member)

end Overview

/-- Somewhere in the renamed text stands a schema that declares the new name, and nothing else. -/
theorem Setting.of_mirrors (subgraph : String) (maxOrScopes : Nat) {first rest : List Statement}
    (moved : ρ own.defaultTypeName ≠ own.defaultTypeName)
    (others : ∀ operation, operation ≠ own →
      ρ operation.defaultTypeName = operation.defaultTypeName ∨ ρ own.defaultTypeName = operation.defaultTypeName)
    (spared : ∀ x ∈ first ++ rest, ∀ e ∈ Overview.rootsIn x, ρ.Spares own e) :
    let given := Setting.of subgraph maxOrScopes (first ++ rest)
    let renamed := Setting.of subgraph maxOrScopes (first.map (·.rename ρ) ++
      .define (.schema ⟨[], [(own, ρ own.defaultTypeName)]⟩) :: rest.map (·.rename ρ))
    given.1.Mirrors ρ own renamed.1 ∧ (renamed.2 = [] ↔ given.2 = []) := by
  have applied : ((first.map (·.rename ρ) ++ .define (.schema ⟨[], [(own, ρ own.defaultTypeName)]⟩) ::
      rest.map (·.rename ρ)).flatMap Overview.appliedIn) = (first ++ rest).flatMap Overview.appliedIn := by
    simp only [List.flatMap_append, List.flatMap_cons, List.flatMap_map, Overview.appliedIn_rename]
    rfl
  dsimp only
  unfold Setting.of
  rw [applied, List.foldl_append, List.foldl_append, List.foldl_cons]
  generalize OrderedSet.ofList (((first ++ rest).flatMap Overview.appliedIn).map Directive.name) = names
  -- Up to the schema the root types are renamed, and after it they are declared as well.
  have start : Overview.Mirrors ρ (RootTypes.Renamed ρ own)
      (⟨subgraph, maxOrScopes, names, .empty, .empty⟩, []) (⟨subgraph, maxOrScopes, names, .empty, .empty⟩, []) :=
    ⟨rfl, rfl, rfl, ⟨fun operation different => (others operation different).imp_right (⟨·, rfl, nofun⟩),
      fun _ => rfl, fun _ => rfl, nofun, nofun⟩, rfl, Iff.rfl⟩
  have before := start.steps RootTypes.Renamed.kept fun x member => spared x (List.mem_append_left rest member)
  generalize first.foldl Overview.step _ = acc at before ⊢
  generalize (first.map (·.rename ρ)).foldl Overview.step _ = acc' at before ⊢
  have declared := before.roots.declare moved
  have schema : Overview.Mirrors ρ (RootTypes.Mirrors ρ own) acc
      (Overview.step acc' (.define (.schema ⟨[], [(own, ρ own.defaultTypeName)]⟩))) := by
    have alone : Overview.declareRoots acc'.1.roots ⟨[], [(own, ρ own.defaultTypeName)]⟩ =
        (acc'.1.roots.declare own (ρ own.defaultTypeName),
          [] ++ (Overview.declareRoot own (ρ own.defaultTypeName) acc'.1.roots).2) := by
      rw [← Overview.declareRoot_fst]
      cases own <;> rfl
    refine { before with roots := ?_, errors := ?_ }
    · simp only [Overview.step, alone]
      exact declared.1
    · simp only [Overview.step, alone, declared.2, List.append_nil, before.errors]
  have after := schema.steps RootTypes.Mirrors.kept fun x member => spared x (List.mem_append_right first member)
  exact ⟨⟨after.subgraph, after.maxOrScopes, after.applied, after.roots, after.customDirectives⟩, after.errors⟩

end Federation
