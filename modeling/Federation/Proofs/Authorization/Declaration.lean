import Federation.Proofs.Authorization.Inheritance

/-!
# What declarations record

A declaration is a host together with the directives that are applied to it at one place of the text. The
requirement that is recorded for a host has the alternatives of all its declarations, in order.
-/

namespace Federation

open Schema

/-- The directives that declare requirements. -/
def Schema.Directive.isAuthorization (d : Directive) : Bool :=
  d.name ∈ [Vocabulary.authenticated, Vocabulary.requiresScopes]

namespace Authorization

/-- What the directives on a host amount to. -/
def Declared.on (limit : Nat) (applied : List Directive) : Declared :=
  .of limit (applied.countP (·.name = Vocabulary.authenticated))
    (applied.filter (·.name = Vocabulary.requiresScopes))

/-- The requirement that is declared, if any is. -/
def Declared.asked : Declared → Requirement
  | .requirement r => r
  | .nothing | .overLimit => .none

theorem Declared.on_filter (limit : Nat) (applied : List Directive) :
    on limit (applied.filter Directive.isAuthorization) = on limit applied := by
  unfold on
  rw [List.countP_filter, List.filter_filter]
  -- Both readers look for names that the filter keeps.
  have counted : ∀ d : Directive, (decide (d.name = Vocabulary.authenticated) && d.isAuthorization) =
      decide (d.name = Vocabulary.authenticated) := by
    intro d
    by_cases name : d.name = Vocabulary.authenticated <;> simp [name, Directive.isAuthorization]
  have listed : ∀ d : Directive, (decide (d.name = Vocabulary.requiresScopes) && d.isAuthorization) =
      decide (d.name = Vocabulary.requiresScopes) := by
    intro d
    by_cases name : d.name = Vocabulary.requiresScopes <;> simp [name, Directive.isAuthorization]
  simp only [counted, listed]

namespace Requirement

/-- The alternatives of all, and authentication if any of them asks for it. -/
def gathered (rs : List Requirement) : Requirement :=
  ⟨rs.any authenticated, rs.flatMap scopes⟩

@[simp]
theorem accumulate_none (r : Requirement) : r.accumulate .none = r := by
  simp [accumulate, none]

@[simp]
theorem none_accumulate (r : Requirement) : accumulate .none r = r := by
  simp [accumulate, none]

end Requirement

namespace Host

/-- Whether a host is the field of a canonical type. -/
def isField (typeName name : String) : Host → Bool
  | field _ canonicalParent other => typeName = canonicalParent ∧ name = other
  | leaf _ => false

/-- Whether a host is an enum or a scalar. -/
def isLeaf (typeName : String) : Host → Bool
  | field .. => false
  | leaf other => typeName = other

end Host

namespace Ledger

variable (limit : Nat) (host : Host) (applied : List Directive) (l : Ledger)

/-- What is recorded depends only on what the directives amount to. -/
theorem declare_eq : l.declare limit host applied =
    match Declared.on limit applied, host with
    | .nothing, _ => l
    | .overLimit, _ => { l with overLimit := l.overLimit.insert host.path }
    | .requirement r, .field _ canonicalParent name =>
      { l with
        records := l.records.update canonicalParent fun record =>
          record.updateField name (·.accumulate r) }
    | .requirement r, .leaf typeName =>
      { l with
        leafTypes := l.leafTypes.insert typeName
        records := l.records.update typeName fun record =>
          { record with requirement := record.requirement.accumulate r } } := by
  unfold declare Declared.on
  dsimp only
  cases Declared.of limit _ _ with
  | nothing => rfl
  | overLimit => rfl
  | requirement r => cases host <;> rfl

theorem declare_filter :
    l.declare limit host (applied.filter Directive.isAuthorization) = l.declare limit host applied := by
  rw [declare_eq, declare_eq, Declared.on_filter]

theorem heirs_declare : (l.declare limit host applied).heirs = l.heirs := by
  rw [declare_eq]
  split <;> rfl

theorem fieldAt_declare (typeName name : String) :
    (l.declare limit host applied).records.fieldAt typeName name =
      (l.records.fieldAt typeName name).accumulate
        (if host.isField typeName name then (Declared.on limit applied).asked else .none) := by
  rw [declare_eq]
  cases Declared.on limit applied with
  | nothing => simp [Declared.asked]
  | overLimit => simp [Declared.asked]
  | requirement r =>
    cases host with
    | leaf other =>
      simp only [Host.isField, Bool.false_eq_true, if_false, Requirement.accumulate_none]
      exact fieldAt_update_of_fields l.records other _ rfl typeName name
    | field parent canonicalParent other =>
      simp only [Records.fieldAt, Records.of_update, Host.isField, Declared.asked, decide_eq_true_eq]
      by_cases same : typeName = canonicalParent
      · subst same
        rw [if_pos rfl, Record.field_updateField]
        by_cases here : name = other
        · simp [here]
        · simp [here]
      · simp [same]

theorem typeAt_declare (typeName : String) :
    (l.declare limit host applied).records.typeAt typeName =
      (l.records.typeAt typeName).accumulate
        (if host.isLeaf typeName then (Declared.on limit applied).asked else .none) := by
  rw [declare_eq]
  cases Declared.on limit applied with
  | nothing => simp [Declared.asked]
  | overLimit => simp [Declared.asked]
  | requirement r =>
    cases host with
    | field parent canonicalParent other =>
      simp only [Records.typeAt, Records.of_update, Host.isLeaf, Bool.false_eq_true, if_false,
        Requirement.accumulate_none]
      split
      · next same => subst same; rfl
      · rfl
    | leaf other =>
      simp only [Records.typeAt, Records.of_update, Host.isLeaf, Declared.asked, decide_eq_true_eq]
      split
      · next same => subst same; rfl
      · simp

/-- A type becomes a leaf type with a requirement only by its own declarations. -/
theorem mem_leafTypes_declare {typeName : String}
    (member : typeName ∈ (l.declare limit host applied).leafTypes.toList) :
    typeName ∈ l.leafTypes.toList ∨ host.isLeaf typeName = true := by
  rw [declare_eq] at member
  generalize Declared.on limit applied = declared at member
  cases declared with
  | nothing => exact Or.inl member
  | overLimit => exact Or.inl member
  | requirement r =>
    cases host with
    | field parent canonicalParent other => exact Or.inl member
    | leaf other => simpa [Host.isLeaf] using member

/-- Where a type is no leaf type with a requirement, its declarations ask for nothing. -/
theorem asked_of_not_mem_leafTypes {typeName : String} (here : host.isLeaf typeName = true)
    (absent : typeName ∉ (l.declare limit host applied).leafTypes.toList) :
    (Declared.on limit applied).asked = .none := by
  rw [declare_eq] at absent
  generalize Declared.on limit applied = declared at absent ⊢
  cases declared with
  | nothing => rfl
  | overLimit => rfl
  | requirement r =>
    cases host with
    | field parent canonicalParent other => simp [Host.isLeaf] at here
    | leaf other => simp_all [Host.isLeaf]

theorem leafTypes_subset_declare :
    l.leafTypes.toList ⊆ (l.declare limit host applied).leafTypes.toList := by
  intro typeName member
  rw [declare_eq]
  cases Declared.on limit applied with
  | nothing => exact member
  | overLimit => exact member
  | requirement r =>
    cases host with
    | field parent canonicalParent other => exact member
    | leaf other => exact OrderedSet.mem_insert.mpr (Or.inl member)

/-- A field gets a requirement only by its own declarations. -/
theorem mem_fields_declare {typeName name : String}
    (member : name ∈ ((l.declare limit host applied).records.of typeName).fields.keys) :
    name ∈ (l.records.of typeName).fields.keys ∨ host.isField typeName name = true := by
  rw [declare_eq] at member
  generalize Declared.on limit applied = declared at member
  cases declared with
  | nothing => exact Or.inl member
  | overLimit => exact Or.inl member
  | requirement r =>
    cases host with
    | leaf other =>
      simp only [Records.of_update] at member
      split at member
      · next same => subst same; exact Or.inl member
      · exact Or.inl member
    | field parent canonicalParent other =>
      simp only [Records.of_update] at member
      split at member
      · next same =>
        rcases Record.mem_fields_updateField.mp member with before | here
        · exact Or.inl (same ▸ before)
        · exact Or.inr (by simp [Host.isField, same, here])
      · exact Or.inl member

theorem overLimit_declare (within : (l.declare limit host applied).overLimit.toList = []) :
    l.overLimit.toList = [] ∧ (Declared.on limit applied matches .overLimit) = false := by
  rw [declare_eq] at within
  generalize Declared.on limit applied = declared at within ⊢
  cases declared with
  | nothing => exact ⟨within, rfl⟩
  | overLimit =>
    exact absurd within (OrderedSet.toList_insert_ne_nil l.overLimit host.path)
  | requirement r => cases host <;> exact ⟨within, rfl⟩

/-! ## Several declarations -/

/-- Records what a list of declarations asks for, in order. -/
def declareAll (ds : List (Host × List Directive)) : Ledger :=
  ds.foldl (fun l d => l.declare limit d.1 d.2) l

/-- What the declarations of the hosts that pass ask for. -/
def asked (here : Host → Bool) (ds : List (Host × List Directive)) : List Requirement :=
  (ds.filter fun d => here d.1).map fun d => (Declared.on limit d.2).asked

theorem asked_cons (here : Host → Bool) (d : Host × List Directive) (ds : List (Host × List Directive)) :
    asked limit here (d :: ds) =
      (if here d.1 then [(Declared.on limit d.2).asked] else []) ++ asked limit here ds := by
  unfold asked
  rw [List.filter_cons]
  split <;> rfl

theorem gathered_asked_cons (here : Host → Bool) (d : Host × List Directive)
    (ds : List (Host × List Directive)) (r : Requirement) :
    r.accumulate (.gathered (asked limit here (d :: ds))) =
      (r.accumulate (if here d.1 then (Declared.on limit d.2).asked else .none)).accumulate
        (.gathered (asked limit here ds)) := by
  rw [asked_cons]
  split <;> simp [Requirement.accumulate, Requirement.gathered, Requirement.none, Bool.or_assoc]

theorem fieldAt_declareAll (ds : List (Host × List Directive)) (typeName name : String) :
    (l.declareAll limit ds).records.fieldAt typeName name =
      (l.records.fieldAt typeName name).accumulate
        (.gathered (asked limit (Host.isField typeName name) ds)) := by
  induction ds generalizing l with
  | nil => exact (Requirement.accumulate_none _).symm
  | cons d ds ih =>
    rw [gathered_asked_cons, ← fieldAt_declare]
    exact ih (l.declare limit d.1 d.2)

theorem typeAt_declareAll (ds : List (Host × List Directive)) (typeName : String) :
    (l.declareAll limit ds).records.typeAt typeName =
      (l.records.typeAt typeName).accumulate (.gathered (asked limit (Host.isLeaf typeName) ds)) := by
  induction ds generalizing l with
  | nil => exact (Requirement.accumulate_none _).symm
  | cons d ds ih =>
    rw [gathered_asked_cons, ← typeAt_declare]
    exact ih (l.declare limit d.1 d.2)

theorem mem_leafTypes_declareAll {ds : List (Host × List Directive)} {typeName : String}
    (member : typeName ∈ (l.declareAll limit ds).leafTypes.toList) :
    typeName ∈ l.leafTypes.toList ∨ ∃ d ∈ ds, d.1.isLeaf typeName = true := by
  induction ds generalizing l with
  | nil => exact Or.inl member
  | cons d ds ih =>
    rcases ih (l.declare limit d.1 d.2) member with before | ⟨e, listed, here⟩
    · rcases mem_leafTypes_declare limit d.1 d.2 l before with before | here
      · exact Or.inl before
      · exact Or.inr ⟨d, List.mem_cons_self, here⟩
    · exact Or.inr ⟨e, List.mem_cons_of_mem d listed, here⟩

theorem leafTypes_subset_declareAll (ds : List (Host × List Directive)) :
    l.leafTypes.toList ⊆ (l.declareAll limit ds).leafTypes.toList := by
  induction ds generalizing l with
  | nil => exact List.Subset.refl _
  | cons d ds ih =>
    exact List.Subset.trans (leafTypes_subset_declare limit d.1 d.2 l) (ih (l.declare limit d.1 d.2))

/-- Where a type is no leaf type with a requirement, none of its declarations asks for anything. -/
theorem gathered_of_not_mem_leafTypes {ds : List (Host × List Directive)} {typeName : String}
    (absent : typeName ∉ (l.declareAll limit ds).leafTypes.toList) :
    Requirement.gathered (asked limit (Host.isLeaf typeName) ds) = .none := by
  induction ds generalizing l with
  | nil => rfl
  | cons d ds ih =>
    have rest := ih (l.declare limit d.1 d.2) absent
    have first : typeName ∉ (l.declare limit d.1 d.2).leafTypes.toList :=
      fun member => absent (leafTypes_subset_declareAll limit (l.declare limit d.1 d.2) ds member)
    -- If the first asks for nothing and the rest for nothing, so do all together.
    have whole := gathered_asked_cons limit (Host.isLeaf typeName) d ds .none
    rw [rest, Requirement.accumulate_none] at whole
    rw [Requirement.none_accumulate, Requirement.none_accumulate] at whole
    rw [whole]
    split
    · next here => exact asked_of_not_mem_leafTypes limit d.1 d.2 l here first
    · rfl

theorem mem_fields_declareAll {ds : List (Host × List Directive)} {typeName name : String}
    (member : name ∈ ((l.declareAll limit ds).records.of typeName).fields.keys) :
    name ∈ (l.records.of typeName).fields.keys ∨ ∃ d ∈ ds, d.1.isField typeName name = true := by
  induction ds generalizing l with
  | nil => exact Or.inl member
  | cons d ds ih =>
    rcases ih (l.declare limit d.1 d.2) member with before | ⟨e, listed, here⟩
    · rcases mem_fields_declare limit d.1 d.2 l before with before | here
      · exact Or.inl before
      · exact Or.inr ⟨d, List.mem_cons_self, here⟩
    · exact Or.inr ⟨e, List.mem_cons_of_mem d listed, here⟩

/-- Where no host is over the limit, no declaration was. -/
theorem overLimit_declareAll {ds : List (Host × List Directive)}
    (within : (l.declareAll limit ds).overLimit.toList = []) :
    l.overLimit.toList = [] ∧ ∀ d ∈ ds, (Declared.on limit d.2 matches .overLimit) = false := by
  induction ds generalizing l with
  | nil => exact ⟨within, nofun⟩
  | cons d ds ih =>
    have rest := ih (l.declare limit d.1 d.2) within
    have first := overLimit_declare limit d.1 d.2 l rest.1
    refine ⟨first.1, fun e member => ?_⟩
    rcases List.mem_cons.mp member with rfl | member
    · exact first.2
    · exact rest.2 e member

end Ledger

end Authorization

end Federation
