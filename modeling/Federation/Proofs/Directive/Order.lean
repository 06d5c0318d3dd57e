import Federation.Proofs.Survey.Intake

/-!
# Directives in order

An application of a directive conforms to a definition where it may stand in its place and is given the arguments that
the definition asks for. The faults that are found with an application are all that keep it from that, so what a host
accepts is in order, whatever else was refused on it.
-/

namespace Federation

open Schema

namespace Schema

/-- Whether a directive has an argument of this name whose type admits the value. Of two arguments that a definition
gives one name the first counts. -/
def DirectiveDefinition.Takes (definition : DirectiveDefinition) (name : String) (value : Value) : Prop :=
  ∃ argument, definition.argument? name = some argument ∧ argument.type.admits value = true

/-- An application at a location that keeps to a definition. -/
structure Directive.Conforms (d : Directive) (location : Location) (definition : DirectiveDefinition) : Prop where
  placed : location ∈ definition.locations
  distinct : (d.arguments.map Prod.fst).Nodup
  declared : ∀ name value, (name, value) ∈ d.arguments → definition.Takes name value
  complete : ∀ argument ∈ definition.arguments, argument.isRequired = true → argument.name ∈ d.arguments.map Prod.fst

end Schema

/-! ## Arguments -/

namespace DirectiveConformance

variable {definition : DirectiveDefinition}

theorem argumentFault?_eq_none_iff {earlier : List String} {name : String} {value : Value} :
    argumentFault? definition earlier name value = none ↔ name ∉ earlier ∧ definition.Takes name value := by
  unfold argumentFault? DirectiveDefinition.Takes
  split
  · next repeated => simp [repeated]
  · next new =>
    cases definition.argument? name with
    | none => simp
    | some argument => simp [new]

theorem givenFaults_eq_nil_iff {arguments : List (String × Value)} {earlier : List String} :
    givenFaults definition earlier arguments = [] ↔
      (arguments.map Prod.fst).Nodup ∧ (∀ name ∈ arguments.map Prod.fst, name ∉ earlier) ∧
        ∀ name value, (name, value) ∈ arguments → definition.Takes name value := by
  -- The names that came before grow with every argument.
  induction arguments generalizing earlier with
  | nil => simp [givenFaults]
  | cons e rest ih =>
    obtain ⟨name, value⟩ := e
    rw [givenFaults, List.append_eq_nil_iff, Option.toList_eq_nil_iff, argumentFault?_eq_none_iff, ih, List.map_cons,
      List.nodup_cons]
    simp only [List.mem_append, not_or, List.mem_cons, List.not_mem_nil, or_false]
    constructor
    · rintro ⟨⟨new, takes⟩, distinct, later, rest⟩
      refine ⟨⟨fun again => (later name again).2 rfl, distinct⟩, ?_, ?_⟩
      · rintro other (rfl | member)
        · exact new
        · exact (later other member).1
      · rintro other value' (same | member)
        · obtain ⟨rfl, rfl⟩ := Prod.mk.inj same
          exact takes
        · exact rest other value' member
    · rintro ⟨⟨absent, distinct⟩, later, takes⟩
      refine ⟨⟨later name (.inl rfl), takes name value (.inl rfl)⟩, distinct, fun other member => ?_,
        fun other value' member => takes other value' (.inr member)⟩
      exact ⟨later other (.inr member), fun same => absent (same ▸ member)⟩

theorem missing_eq_nil_iff {given : List String} :
    missing definition given = [] ↔
      ∀ argument ∈ definition.arguments, argument.isRequired = true → argument.name ∈ given := by
  simp only [missing, List.filter_eq_nil_iff, List.mem_map, List.mem_filter, decide_eq_true_eq, not_not]
  constructor
  · exact fun all argument member required => all _ ⟨argument, ⟨member, required⟩, rfl⟩
  · rintro all _ ⟨argument, ⟨member, required⟩, rfl⟩
    exact all argument member required

/-- Nothing is found with an application just where it conforms to the definition. -/
theorem conforms_iff {d : Directive} {location : Location} :
    d.Conforms location definition ↔ location ∈ definition.locations ∧ argumentFaults d definition = [] := by
  unfold argumentFaults
  rw [List.append_eq_nil_iff, ite_isEmpty_eq_nil_iff, givenFaults_eq_nil_iff, missing_eq_nil_iff]
  constructor
  · exact fun ⟨placed, distinct, declared, complete⟩ =>
      ⟨placed, ⟨distinct, fun _ _ => List.not_mem_nil, declared⟩, complete⟩
  · exact fun ⟨placed, ⟨distinct, _, declared⟩, complete⟩ => ⟨placed, distinct, declared, complete⟩

end DirectiveConformance

/-! ## Hosts -/

namespace AppliedDirectives

theorem mem_flatten {applied : AppliedDirectives} {d : Directive} :
    d ∈ applied.flatten ↔ ∃ name, d ∈ applied.named name := by
  unfold flatten Table.values named Table.getD
  simp only [List.mem_flatten, List.mem_map, Prod.exists, Table.mem_toList]
  constructor
  · rintro ⟨_, ⟨name, ds, found, rfl⟩, member⟩
    exact ⟨name, by simpa [found] using member⟩
  · rintro ⟨name, member⟩
    cases found : Table.get? applied name with
    | none => simp [found] at member
    | some ds => exact ⟨ds, ⟨name, ds, found, rfl⟩, by simpa [found] using member⟩

theorem contains_of_mem_named {applied : AppliedDirectives} {name : String} {d : Directive}
    (member : d ∈ applied.named name) : applied.contains name = true := by
  refine Table.contains_iff.mpr (Table.get?_isSome_iff.mp ?_)
  unfold named Table.getD at member
  cases found : Table.get? applied name with
  | none => simp [found] at member
  | some ds => rfl

/-- What holds of the directives that a host at a location keeps. -/
structure InOrder (setting : Setting) (location : Location) (applied : AppliedDirectives) : Prop where
  filed : ∀ name, ∀ d ∈ applied.named name, d.name = name
  allowed : ∀ name, ∀ d ∈ applied.named name, setting.Allows location d
  known : ∀ name, ∀ d ∈ applied.named name, name ∈ setting.applied.toList
  once : ∀ name definition, setting.directive? name = some definition → definition.isRepeatable = false →
    (applied.named name).length ≤ 1
  /-- What the ledger takes is not kept. -/
  unrecorded : Intake.goesToLedger location = true → ∀ d : Directive, d.isAuthorization = true →
    applied.named d.name = []

namespace InOrder

variable {setting : Setting} {location : Location} {applied : AppliedDirectives}

theorem empty (setting : Setting) (location : Location) : InOrder setting location .empty where
  filed _ _ := nofun
  allowed _ _ := nofun
  known _ _ := nofun
  once _ _ _ _ := Nat.zero_le 1
  unrecorded _ _ _ := rfl

/-- An application is added that is in order and not repeated, and that the ledger does not take. -/
theorem add (before : applied.InOrder setting location) {d : Directive} (known : d.name ∈ setting.applied.toList)
    {definition : DirectiveDefinition} (defined : setting.directive? d.name = some definition)
    (placed : location ∈ definition.locations) (sound : DirectiveConformance.argumentFaults d definition = [])
    (new : definition.isRepeatable = false → applied.contains d.name = false)
    (kept : d.isAuthorization = true → Intake.goesToLedger location = false) :
    (applied.add d).InOrder setting location := by
  -- What is found under a name is what was there before, or the name is that of the new application.
  have cases : ∀ {name : String} {e : Directive}, e ∈ (applied.add d).named name →
      e ∈ applied.named name ∨ name = d.name ∧ e = d := by
    intro name e member
    rw [named_add] at member
    split at member
    · next here =>
      rcases List.mem_append.mp member with earlier | last
      · exact .inl (here ▸ earlier)
      · exact .inr ⟨here, List.mem_singleton.mp last⟩
    · exact .inl member
  constructor
  case filed =>
    intro name e member
    rcases cases member with earlier | ⟨here, rfl⟩
    · exact before.filed name e earlier
    · exact here.symm
  case allowed =>
    intro name e member
    rcases cases member with earlier | ⟨-, rfl⟩
    · exact before.allowed name e earlier
    · exact ⟨definition, defined, placed, sound⟩
  case known =>
    intro name e member
    rcases cases member with earlier | ⟨here, -⟩
    · exact before.known name e earlier
    · exact here ▸ known
  case once =>
    intro name definition' defined' single
    rw [named_add]
    split
    · next here =>
      obtain rfl := Option.some.inj (defined.symm.trans (here ▸ defined'))
      have none : applied.named d.name = [] :=
        List.eq_nil_iff_forall_not_mem.mpr fun e member =>
          Bool.false_ne_true ((new single).symm.trans (contains_of_mem_named member))
      simp [none]
    · exact before.once name definition' defined' single
  case unrecorded =>
    intro taken e authorizes
    rw [named_add]
    split
    · next here =>
      have authorizes' : d.isAuthorization = true := by simpa [Directive.isAuthorization, ← here] using authorizes
      exact absurd (kept authorizes') (by simp [taken])
    · exact before.unrecorded taken e authorizes

/-- A name is listed as often as it was accepted. -/
theorem filter_flatten (inOrder : applied.InOrder setting location) (name : String) :
    applied.flatten.filter (·.name = name) = applied.named name := by
  have others : ∀ e ∈ Table.toList applied, e.1 ≠ name → e.2.filter (fun d => d.name = name) = [] := by
    rintro ⟨other, ds⟩ member different
    have here : applied.named other = ds := by
      simp [named, Table.getD, Table.mem_toList.mp member]
    exact List.filter_eq_nil_iff.mpr fun d inside => by
      simpa [inOrder.filed other d (here ▸ inside)] using different
  have all : (applied.named name).filter (fun d => d.name = name) = applied.named name :=
    List.filter_eq_self.mpr fun d member => by simpa using inOrder.filed name d member
  have parts : applied.flatten = (Table.toList applied).flatMap Prod.snd := List.flatMap_def.symm
  rw [parts, List.filter_flatMap, Table.flatMap_toList applied name _ others, ← all]
  unfold named Table.getD
  cases Table.get? applied name <;> simp

end InOrder

end AppliedDirectives

/-! ## The intake -/

namespace Intake

variable {setting : Setting} {location : Location} {hostPath : String}

theorem inOrder_step {i : Intake} {d : Directive} (known : d.name ∈ setting.applied.toList)
    (before : i.accepted.InOrder setting location) :
    (step setting location hostPath i d).accepted.InOrder setting location := by
  rcases accepted_step setting location hostPath i d with same | ⟨valid, kept, added⟩
  · exact same ▸ before
  · obtain ⟨definition, defined, placed, sound, new⟩ := allows_of_valid valid
    rw [added]
    refine before.add known defined placed sound new fun authorizes => ?_
    rw [← isSetAside_of_isAuthorization location i.accepted d authorizes]
    exact kept

/-- What a host accepts is in order, also where something is refused. -/
theorem inOrder_run {applied : List Directive} {accepted : AppliedDirectives} {repeats : Repeats}
    (known : ∀ d ∈ applied, d.name ∈ setting.applied.toList) (before : accepted.InOrder setting location) :
    (run setting location hostPath accepted repeats applied).accepted.InOrder setting location :=
  List.foldlRecOn (motive := fun i : Intake => i.accepted.InOrder setting location) applied _ before
    fun _ inOrder d member => inOrder_step (known d member) inOrder

end Intake

end Federation
