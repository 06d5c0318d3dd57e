import Federation.Proofs.Event.Binding

/-!
# What a setting knows of a text

The directives that count as applied are those of the whole text, so that version and events can be read off it. What a
subgraph defines stands under its own name and never in the stead of a catalogued directive.
-/

namespace Federation

open Schema

namespace Overview

theorem applied_step (acc : Setting × List Error) (x : Statement) : (step acc x).1.applied = acc.1.applied := by
  rcases x with (_ | _ | _) | _ | _ <;> rfl

/-- Whether definitions stand under their own names, and none of them is one of a catalogued directive. -/
def IsBeside (custom : Table String DirectiveDefinition) : Prop :=
  ∀ name d, custom.get? name = some d → d.name = name ∧ Catalogue.directive? name = none

theorem isBeside_defineDirective {custom : Table String DirectiveDefinition} (d : DirectiveDefinition)
    (before : IsBeside custom) : IsBeside (defineDirective custom d).1 := by
  unfold defineDirective
  split
  · exact before
  · next uncatalogued =>
    split
    · exact before
    · intro name d' found
      rw [Table.get?_insert] at found
      split at found
      · next here =>
        obtain rfl := Option.some.inj found
        exact ⟨here.symm, by simpa [here] using uncatalogued⟩
      · exact before name d' found

theorem isBeside_step (acc : Setting × List Error) (x : Statement) (before : IsBeside acc.1.customDirectives) :
    IsBeside (step acc x).1.customDirectives := by
  rcases x with (d | _ | _) | _ | _
  case define.directive => exact isBeside_defineDirective d before
  all_goals exact before

end Overview

namespace Setting

variable {subgraph : String} {maxOrScopes : Nat} {statements : List Statement}

theorem mem_applied_of {name : String} :
    name ∈ (of subgraph maxOrScopes statements).1.applied.toList ↔
      ∃ d ∈ statements.flatMap Overview.appliedIn, d.name = name := by
  have kept : ∀ acc : Setting × List Error, (statements.foldl Overview.step acc).1.applied = acc.1.applied :=
    fun acc => List.foldlRecOn (motive := fun acc' : Setting × List Error => acc'.1.applied = acc.1.applied) statements
      _ rfl fun acc' same x _ => (Overview.applied_step acc' x).trans same
  unfold of
  rw [kept, OrderedSet.mem_ofList, List.mem_map]

theorem isBeside_of : Overview.IsBeside (of subgraph maxOrScopes statements).1.customDirectives :=
  List.foldlRecOn (motive := fun acc : Setting × List Error => Overview.IsBeside acc.1.customDirectives) statements _
    nofun fun acc before x _ => Overview.isBeside_step acc x before

theorem isEventDriven_of :
    (of subgraph maxOrScopes statements).1.isEventDriven = true ↔
      ∃ d ∈ statements.flatMap Overview.appliedIn, Event.isEvent d = true := by
  unfold isEventDriven eventDirectives OrderedSet.isEmpty
  rw [OrderedSet.toList_filter, Bool.not_eq_true', List.isEmpty_eq_false_iff_exists_mem]
  simp only [List.mem_filter, mem_applied_of, decide_eq_true_eq, Event.isEvent]
  constructor
  · rintro ⟨_, ⟨d, applied, rfl⟩, event⟩
    exact ⟨d, applied, event⟩
  · rintro ⟨d, applied, event⟩
    exact ⟨d.name, ⟨d, applied, rfl⟩, event⟩

theorem isVersionTwo_of_mem_applied {s : Setting} {name : String} (applied : name ∈ s.applied.toList)
    (marks : name ∈ Vocabulary.versionTwoMarkers) : s.isVersionTwo = true :=
  List.any_eq_true.mpr ⟨name, applied, decide_eq_true marks⟩

end Setting

end Federation
