import Federation.Proofs.Diagnostic.Stage
import Federation.Proofs.Registry.Union

/-!
# What a survey reports

All that the steps of a survey report is about declarations, but for two errors: a type is registered with another kind,
or it has a base definition already. So the errors that a sighting makes of its type as a whole can be told from what
was registered before it.
-/

namespace Federation

open Schema
open Stage (finds_append finds_map finds_nil finds_one)

namespace Survey

/-- From one survey to the other nothing but errors of declarations are added. -/
def Declares (a b : Survey) : Prop := ∃ found, Stage.declaration.Finds found ∧ b.errors = a.errors ++ found

namespace Declares

/-- A step that writes no errors. -/
theorem of_writes {a b : Survey} {parts : List Part} (written : Writes parts a b) (errors : .errors ∉ parts) :
    Declares a b := by
  have same := written.same .errors errors
  exact ⟨[], finds_nil _, by simp [same]⟩

theorem refl (a : Survey) : Declares a a := of_writes (Writes.refl a : Writes [] a a) (by decide)

theorem trans {a b c : Survey} (first : Declares a b) (second : Declares b c) : Declares a c := by
  obtain ⟨found, here, added⟩ := first
  obtain ⟨found', here', added'⟩ := second
  exact ⟨found ++ found', finds_append here here', by rw [added', added, List.append_assoc]⟩

theorem foldl {α : Type} (step : Survey → α → Survey) (one : ∀ s x, Declares s (step s x)) (xs : List α)
    (s : Survey) : Declares s (xs.foldl step s) :=
  List.foldlRecOn xs step (refl s) fun s' before x _ => before.trans (one s' x)

theorem filter_errors {a b : Survey} (declared : Declares a b) {view : Error → Bool}
    (blind : ∀ e, e.stage = .declaration → view e = false) : b.errors.filter view = a.errors.filter view := by
  obtain ⟨found, here, added⟩ := declared
  rw [added, List.filter_append, here.filter_eq_nil blind, List.append_nil]

end Declares

variable (setting : Setting) (s : Survey)

theorem declares_reportAll {es : List Error} (here : Stage.declaration.Finds es) : Declares s (s.reportAll es) :=
  ⟨es, here, rfl⟩

theorem declares_report {e : Error} (here : e.stage = .declaration) : Declares s (s.report e) :=
  declares_reportAll s (finds_one here)

theorem declares_takeIn (location : Location) (hostPath : String) (accepted : AppliedDirectives)
    (applied : List Directive) : Declares s (s.takeIn setting location hostPath accepted applied).2 :=
  ⟨_, Intake.finds_run setting location hostPath accepted s.repeats applied, rfl⟩

theorem declares_bindEvents (canonicalName field : String) (applied : AppliedDirectives)
    (arguments : Table String InputValue) : Declares s (s.bindEvents canonicalName field applied arguments) := by
  refine .foldl _ (fun s d => ?_) _ s
  split
  · exact declares_report s rfl
  · exact .of_writes (writes_bindings s _) (by decide)

theorem declares_sightArguments (kind : TypeKind) (parent field : String) (arguments : List InputValueDefinition)
    (acc : Table String InputValue × Survey) :
    Declares acc.2 (arguments.foldl (sightArgument setting kind parent field) acc).2 := by
  induction arguments generalizing acc with
  | nil => exact .refl _
  | cons a rest ih =>
    refine Declares.trans ?_ (ih _)
    unfold sightArgument
    dsimp only
    split
    · exact declares_report acc.2 rfl
    · exact (declares_takeIn setting acc.2 ..).trans (.of_writes (writes_refer ..) (by decide))

namespace FieldMerge

variable (m : FieldMerge)

theorem declares_argued : Declares m.before m.argued.2 := by
  have taken : Declares m.before m.taken.2 := declares_takeIn ..
  have admitted : Declares m.taken.2 m.admitted := by
    refine .trans ?_ (.of_writes (writes_authorize ..) (by decide))
    exact .of_writes (writes_recordOverrides ..) (by decide)
  refine (taken.trans admitted).trans ?_
  exact declares_sightArguments m.setting m.entry.kind m.parent m.declaration.name m.declaration.arguments
    ((m.existing?.map Field.arguments).getD .empty, m.admitted)

/-- After the arguments only the events of a new field are still reported on. -/
theorem declares_after : Declares m.before m.after := by
  have noted := m.declares_argued.trans (.of_writes m.writes_records (by decide))
  have bound : Declares m.noted m.bound := by
    unfold bound
    split
    · exact .refl m.noted
    · exact (declares_bindEvents ..).trans (.of_writes (writes_ledger ..) (by decide))
  exact (noted.trans bound).trans (.of_writes m.writes_after (by decide))

end FieldMerge

theorem declares_mergeField (parent : String) (entry : TypeEntry) (existing? : Option Field) (f : FieldDefinition) :
    Declares s (s.mergeField setting parent entry existing? f) := by
  have declared := FieldMerge.declares_after ⟨setting, parent, entry, existing?, f, s⟩
  rwa [FieldMerge.after_eq] at declared

theorem declares_sightField (parent : String) (isExtension : Bool) (f : FieldDefinition) :
    Declares s (s.sightField setting parent isExtension f) := by
  rcases sightField_cases setting s parent isExtension f with
    ⟨same, -⟩ | ⟨_, same⟩ | ⟨entry, -, -, -, same⟩ <;> rw [same]
  · exact .refl s
  · exact declares_report s rfl
  · exact declares_mergeField ..

theorem declares_sightSchema (d : SchemaDefinition) : Declares s (s.sightSchema setting d) :=
  declares_takeIn setting s .schema "schema" s.schemaDirectives d.directives

theorem declares_sightEnumValue (parent : String) (isExtension : Bool) (v : EnumValueDefinition) :
    Declares s (s.sightEnumValue setting parent isExtension v) := by
  unfold sightEnumValue
  split
  · dsimp only
    split
    · exact declares_report s rfl
    · exact (declares_takeIn setting s ..).trans (.of_writes (writes_reshape ..) (by decide))
  · exact .refl s

theorem declares_sightInputValue (parent : String) (isExtension : Bool) (v : InputValueDefinition) :
    Declares s (s.sightInputValue setting parent isExtension v) := by
  unfold sightInputValue
  split
  · dsimp only
    split
    · exact declares_report s rfl
    · refine .trans ?_ (.of_writes (writes_reshape ..) (by decide))
      exact (declares_takeIn setting s ..).trans (.of_writes (writes_refer ..) (by decide))
  · exact .refl s

/-- Anything but a type is looked at with no other errors than those of declarations. -/
theorem declares_look (l : Look) (noType : ∀ isExtension t, l ≠ .type isExtension t) :
    Declares s (s.look setting l) := by
  cases l with
  | type isExtension t => exact absurd rfl (noType isExtension t)
  | schema d => exact declares_sightSchema ..
  | field isExtension t f => exact declares_sightField ..
  | enumValue isExtension t v => exact declares_sightEnumValue ..
  | inputValue isExtension t v => exact declares_sightInputValue ..

theorem declares_sightChildren (isExtension : Bool) (t : TypeDefinition) :
    Declares s (s.sightChildren setting isExtension t) := by
  unfold sightChildren
  split
  · exact .foldl _ (fun s => declares_sightEnumValue setting s t.name isExtension) _ s
  · exact .foldl _ (fun s => declares_sightInputValue setting s t.name isExtension) _ s
  · exact .foldl _ (fun s => declares_sightField setting s t.name isExtension) _ s
  · exact .foldl _ (fun s => declares_sightField setting s t.name isExtension) _ s
  · exact .refl s
  · exact .refl s

theorem declares_takeInType (t : TypeDefinition) (old? : Option TypeEntry) :
    Declares s (s.takeInType setting t old?).2 :=
  .trans (declares_takeIn setting s ..) (.of_writes (writes_takeInType_later setting s t old?) (by decide))

theorem finds_relistingErrors (t : TypeDefinition) (listed : NameSet) :
    Stage.declaration.Finds (relistingErrors t listed) :=
  finds_map fun name => by split <;> rfl

namespace TypeMerge

variable (m : TypeMerge)

theorem declares_registered : Declares m.before m.registered := by
  have noted : Declares m.before m.noted := .of_writes m.writes_noted (by decide)
  have taken := noted.trans (declares_takeInType m.setting m.noted m.type m.old?)
  have reported := taken.trans (declares_reportAll m.taken.2 (finds_relistingErrors m.type m.listed))
  exact (reported.trans (.of_writes m.writes_joined (by decide))).trans (.of_writes m.writes_registered (by decide))

theorem isSecondBase_eq :
    TypeEntry.isSecondBase m.old? m.extension = (m.old?.any TypeEntry.hasBase && !m.isExtension) := by
  have keyword : m.extension = .byKeyword ↔ m.isExtension = true := extensionOf_eq_byKeyword_iff ..
  simp only [TypeEntry.isSecondBase, ne_eq, keyword]
  cases m.isExtension <;> simp

end TypeMerge

/-- Apart from declarations, a merge reports a second base definition and no more. -/
theorem errors_merge (isExtension : Bool) (t : TypeDefinition) : ∃ found, Stage.declaration.Finds found ∧
    (s.merge setting isExtension t).errors = s.errors ++ found ++
      if (s.types.get? t.name).any TypeEntry.hasBase && !isExtension then [.duplicateType t.kind t.name] else [] := by
  generalize same : TypeMerge.mk setting isExtension t s = m
  obtain ⟨found, here, added⟩ := m.declares_registered
  have after : m.after.errors = m.settled.errors := m.writes_after.same .errors (by decide)
  have second := m.isSecondBase_eq
  have settled : m.settled.errors = m.registered.errors ++
      if m.old?.any TypeEntry.hasBase && !m.isExtension then [.duplicateType m.type.kind m.type.name] else [] := by
    rw [TypeMerge.settled, second]
    split
    · rfl
    · exact (List.append_nil _).symm
  rw [added] at settled
  subst same
  exact ⟨found, here, after.trans settled⟩

end Survey

end Federation
