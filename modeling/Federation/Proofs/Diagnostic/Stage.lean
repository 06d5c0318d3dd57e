import Federation.Normalization.Outcome

/-!
# The stages at which errors are found

Each part of a normalization finds errors of its own, which no other part finds: the setting, the walk as it merges a
type or as it takes in a declaration, and the assembly once all is known. An account of the errors of one stage can
leave the other parts aside.
-/

namespace Federation

open Schema

/-- The parts of a normalization, as far as the errors they find differ. -/
inductive Stage
  | reading
  | setting
  /-- A type is sighted once more. -/
  | sighting
  /-- Something on a type or inside it is declared. -/
  | declaration
  | assembly
  /-- External fields are looked up among those in use. -/
  | use
  | promotion
  | batch
  deriving DecidableEq

/-- The stage at which an error is found. -/
def Error.stage : Error → Stage
  | unreadable => .reading
  | conflictingRootTypes .. | duplicateDirective .. => .setting
  | conflictingKinds .. | duplicateType .. => .sighting
  | duplicateChild .. | duplicateInterface .. | duplicateMember .. | invalidDirective .. | invalidEvent .. =>
    .declaration
  | duplicateDirectiveArguments .. | externalInterfaceFields .. | implementedNonInterfaces .. | invalidEventGraph ..
  | invalidFieldSets .. | invalidImplementation .. | invalidKeyFieldSets .. | invalidKeys .. | misplacedFilter ..
  | noBaseScalar .. | noEnumValues .. | noFields .. | noInputValues .. | noMembers .. | nonObjectMembers ..
  | nonObjectRoot .. | outputArguments .. | selfImplementation .. | shadowedRootType .. | tooManyScopes ..
  | undefinedType .. => .assembly
  | unusedExternal .. => .use
  | promoted .. => .promotion
  | contestedFields .. | invalidSubgraph .. | invalidSubgraphNames .. => .batch

namespace Stage

/-- All of these errors are found at a stage. -/
def Finds (stage : Stage) (es : List Error) : Prop := ∀ e ∈ es, e.stage = stage

variable {stage : Stage} {e : Error} {c : Prop} [Decidable c]

theorem finds_nil (stage : Stage) : stage.Finds [] := List.forall_mem_nil _

theorem finds_one (here : e.stage = stage) : stage.Finds [e] := List.forall_mem_singleton.mpr here

theorem finds_when (here : e.stage = stage) : stage.Finds (if c then [e] else []) := by
  split
  · exact finds_one here
  · exact finds_nil stage

theorem finds_unless (here : e.stage = stage) : stage.Finds (if c then [] else [e]) := by
  split
  · exact finds_nil stage
  · exact finds_one here

theorem finds_append {es es' : List Error} (first : stage.Finds es) (second : stage.Finds es') :
    stage.Finds (es ++ es') :=
  List.forall_mem_append.mpr ⟨first, second⟩

theorem finds_map {α : Type} {items : List α} {make : α → Error} (here : ∀ x, (make x).stage = stage) :
    stage.Finds (items.map make) :=
  List.forall_mem_map.mpr fun x _ => here x

theorem finds_flatMap {α : Type} {items : List α} {make : α → List Error} (here : ∀ x, stage.Finds (make x)) :
    stage.Finds (items.flatMap make) :=
  List.forall_mem_flatMap.mpr fun x _ => here x

theorem finds_filterMap {α : Type} {items : List α} {make : α → Option Error}
    (here : ∀ x, ∀ e ∈ make x, e.stage = stage) : stage.Finds (items.filterMap make) := by
  intro e member
  obtain ⟨x, -, made⟩ := List.mem_filterMap.mp member
  exact here x e made

/-- A view of errors of one stage sees nothing of another stage. -/
theorem Finds.filter_eq_nil {es : List Error} (found : stage.Finds es) {view : Error → Bool}
    (blind : ∀ e, e.stage = stage → view e = false) : es.filter view = [] :=
  List.filter_eq_nil_iff.mpr fun e member => by simp [blind e (found e member)]

end Stage

open Stage

/-! ## The setting -/

theorem Setting.finds_of (subgraph : String) (maxOrScopes : Nat) (statements : List Statement) :
    Stage.setting.Finds (Setting.of subgraph maxOrScopes statements).2 := by
  have roots (roots : RootTypes) (d : SchemaDefinition) : Stage.setting.Finds (Overview.declareRoots roots d).2 := by
    refine List.foldlRecOn (motive := fun acc : RootTypes × List Error => Stage.setting.Finds acc.2)
      (Overview.rootsOf d) _ (finds_nil _) fun acc so_far root _ => finds_append so_far ?_
    unfold Overview.declareRoot
    split
    · exact finds_unless rfl
    · exact finds_nil _
  have directives (custom : Table String DirectiveDefinition) (d : DirectiveDefinition) :
      Stage.setting.Finds (Overview.defineDirective custom d).2 := by
    unfold Overview.defineDirective
    split
    · exact finds_nil _
    · split
      · exact finds_one rfl
      · exact finds_nil _
  refine List.foldlRecOn (motive := fun acc : Setting × List Error => Stage.setting.Finds acc.2) statements _
    (finds_nil _) fun acc so_far x _ => ?_
  rcases x with (d | d | _) | d | _
  · exact finds_append so_far (directives _ d)
  · exact finds_append so_far (roots _ d)
  · exact so_far
  · exact finds_append so_far (roots _ d)
  · exact so_far

/-! ## The walk -/

/-- What is refused of directives is refused one declaration at a time. -/
theorem Intake.finds_run (setting : Setting) (location : Location) (hostPath : String) (accepted : AppliedDirectives)
    (repeats : Repeats) (applied : List Directive) :
    Stage.declaration.Finds (run setting location hostPath accepted repeats applied).errors := by
  refine List.foldlRecOn (motive := fun i : Intake => Stage.declaration.Finds i.errors) applied _ (finds_nil _)
    fun i so_far d _ => ?_
  unfold step
  split
  · exact so_far
  · exact finds_append so_far (finds_one rfl)
  · split
    · exact finds_append so_far (finds_one rfl)
    · split <;> exact so_far

/-! ## The assembly -/

namespace Assembly

variable (a : Assembly)

theorem finds_typeErrors (typeName : String) (entry : TypeEntry) :
    Stage.assembly.Finds (a.typeErrors typeName entry) := by
  have composite (c : Composite) : Stage.assembly.Finds (a.compositeErrors typeName entry c) := by
    have implementation : Stage.assembly.Finds (a.implementationErrors typeName entry c) :=
      finds_append (finds_append (finds_append (finds_map fun _ => rfl) (finds_unless rfl)) (finds_when rfl))
        (finds_unless rfl)
    refine finds_append (finds_append (finds_append (finds_filterMap ?_) (finds_unless rfl)) implementation)
      (finds_when rfl)
    rintro ⟨name, f⟩ e made
    dsimp only at made
    split at made
    · nomatch made
    · exact Option.some.inj made ▸ rfl
  unfold typeErrors
  split
  · exact finds_when rfl
  · exact finds_when rfl
  · exact composite _
  · exact composite _
  · exact finds_unless rfl
  · exact finds_append (finds_when rfl) (finds_unless rfl)

theorem finds_fieldSetErrors : Stage.assembly.Finds a.fieldSetErrors := by
  have selection (directive typeName : String) (declared : List FieldSet.DeclaredSelection) :
      Stage.assembly.Finds (FieldSet.selectionErrors directive typeName declared) := finds_unless rfl
  exact finds_append (finds_flatMap fun keys => finds_append (finds_unless rfl) (finds_unless rfl))
    (finds_flatMap fun sets => finds_append (selection _ _ _) (selection _ _ _))

theorem finds_rootErrors (operation : Operation) : Stage.assembly.Finds (a.rootErrors operation) := by
  unfold rootErrors
  dsimp only
  split
  · exact finds_one rfl
  · split
    · exact finds_unless rfl
    · exact finds_nil _

theorem finds_clientDirectiveErrors : Stage.assembly.Finds a.clientDirectiveErrors := by
  refine finds_filterMap ?_
  rintro ⟨name, d⟩ e made
  dsimp only at made
  split at made
  · exact Option.some.inj made ▸ rfl
  · nomatch made

theorem finds_eventErrors : Stage.assembly.Finds a.eventErrors := by
  unfold eventErrors
  split
  · exact finds_unless rfl
  · exact finds_nil _

theorem finds_filterErrors : Stage.assembly.Finds a.filterErrors := by
  refine finds_filterMap ?_
  rintro ⟨path, isSubscription⟩ e made
  dsimp only at made
  split at made
  · nomatch made
  · exact Option.some.inj made ▸ rfl

/-- What an assembly finds by itself, before external fields are looked up. -/
def ownErrors : List Error :=
  a.scopeErrors ++ (a.ownTypes.flatMap fun (name, entry) => a.typeErrors name entry) ++
    Operation.all.flatMap a.rootErrors ++ a.undefinedNames.map Error.undefinedType ++
    a.fieldSetErrors ++ a.clientDirectiveErrors ++ a.eventErrors ++ a.filterErrors

theorem finds_ownErrors : Stage.assembly.Finds a.ownErrors := by
  refine finds_append (finds_append (finds_append (finds_append (finds_append (finds_append (finds_append ?_ ?_) ?_) ?_)
    a.finds_fieldSetErrors) a.finds_clientDirectiveErrors) a.finds_eventErrors) a.finds_filterErrors
  · exact finds_unless rfl
  · exact finds_flatMap fun entry => a.finds_typeErrors entry.1 entry.2
  · exact finds_flatMap a.finds_rootErrors
  · exact finds_map fun _ => rfl

theorem errors_eq : a.errors = a.survey.errors ++ a.ownErrors ++
    if a.setting.isVersionTwo then a.unusedExternals.map Error.unusedExternal else [] := by
  simp only [errors, ownErrors, List.append_assoc]

/-- The assembly finds nothing that the walk finds. -/
theorem filter_errors {view : Error → Bool} (ofAssembly : ∀ e, e.stage = .assembly → view e = false)
    (ofUse : ∀ e, e.stage = .use → view e = false) : a.errors.filter view = a.survey.errors.filter view := by
  have unused : Stage.use.Finds
      (if a.setting.isVersionTwo then a.unusedExternals.map Error.unusedExternal else []) := by
    split
    · exact finds_map fun _ => rfl
    · exact finds_nil _
  rw [errors_eq, List.filter_append, List.filter_append, a.finds_ownErrors.filter_eq_nil ofAssembly,
    unused.filter_eq_nil ofUse, List.append_nil, List.append_nil]

end Assembly

/-- Warnings that are made errors are at a stage of their own. -/
theorem filter_normalize (options : NormalizationOptions) (statements : List Statement) {view : Error → Bool}
    (ofPromotion : ∀ e, e.stage = .promotion → view e = false) :
    (normalize options statements).diagnostics.errors.filter view =
      (Assembly.of options.subgraph options.maxOrScopes statements).errors.filter view := by
  unfold normalize
  dsimp only
  split
  · have promoted : Stage.promotion.Finds
        ((Assembly.of options.subgraph options.maxOrScopes statements).warnings.map Error.promoted) :=
      finds_map fun _ => rfl
    rw [Diagnostics.promoteWarnings, List.filter_append, promoted.filter_eq_nil ofPromotion, List.append_nil]
  · rfl

end Federation
