import Federation.Proofs.Survey.Coherence

/-!
# What a survey says about membership

Facts about membership are noted wherever a concrete type is, and wherever an enum or a scalar is merged. So they tell
all that the survey knows of either, whether it ends without errors or not.
-/

namespace Federation

open Schema

/-- The concrete types that one fact tells of, after those that are known. -/
def ConcreteTypes.note (concrete : ConcreteTypes) : Membership.Fact → ConcreteTypes
  | .leaf _ => concrete
  | .concrete abstractName concreteName => concrete.add abstractName concreteName

/-- The concrete types that facts about membership tell of. -/
def ConcreteTypes.ofFacts (facts : List Membership.Fact) : ConcreteTypes := facts.foldl note .empty

theorem ConcreteTypes.ofFacts_append_one (facts : List Membership.Fact) (fact : Membership.Fact) :
    ofFacts (facts ++ [fact]) = (ofFacts facts).note fact := by
  unfold ofFacts
  rw [List.foldl_append]
  rfl

/-- Whether a type is registered as an enum or a scalar. -/
def Registry.isLeaf (types : Registry) (typeName : String) : Bool := (types.kind? typeName).any TypeKind.isLeaf

namespace Survey

/-! ## What is noted -/

/-- From one survey to the other facts are noted wherever concrete types are, and the given leaf types are noted. -/
structure Tells (leaves : List String) (a b : Survey) : Prop where
  concrete : a.concrete = .ofFacts a.facts → b.concrete = .ofFacts b.facts
  leaves : ∀ name, .leaf name ∈ b.facts ↔ .leaf name ∈ a.facts ∨ name ∈ leaves

namespace Tells

variable {a b c : Survey}

/-- A step that writes nothing about membership. -/
theorem of_writes {parts : List Part} (written : Writes parts a b) (concrete : .concrete ∉ parts)
    (facts : .facts ∉ parts) : Tells [] a b := by
  have types := written.same .concrete concrete
  have told := written.same .facts facts
  exact ⟨fun agree => by rw [types, told, agree], fun name => by rw [told]; simp⟩

theorem refl (a : Survey) : Tells [] a a := of_writes (Writes.refl a : Writes [] a a) (by decide) (by decide)

/-- Facts about concrete types may follow. -/
theorem trans {leaves : List String} (one : Tells leaves a b) (two : Tells [] b c) : Tells leaves a c :=
  ⟨two.concrete ∘ one.concrete, fun name => by rw [two.leaves, one.leaves]; simp⟩

theorem foldl {α : Type} (step : Survey → α → Survey) (one : ∀ s x, Tells [] s (step s x)) (xs : List α)
    (s : Survey) : Tells [] s (xs.foldl step s) :=
  List.foldlRecOn xs step (refl s) fun s' before x _ => before.trans (one s' x)

end Tells

variable (setting : Setting) (s : Survey)

theorem tells_addConcrete (abstractName concreteName : String) :
    Tells [] s (s.addConcrete abstractName concreteName) where
  concrete agree := by
    dsimp only [addConcrete]
    rw [ConcreteTypes.ofFacts_append_one, ← agree]
    rfl
  leaves name := by simp [addConcrete]

theorem tells_recordMembers (t : TypeDefinition) (listed : NameSet) : Tells [] s (s.recordMembers t listed) := by
  refine .foldl _ (fun s member => ?_) _ s
  have added := tells_addConcrete s t.name member
  dsimp only
  split
  · exact added
  · exact ⟨added.concrete, added.leaves⟩

theorem tells_recordImplementations (typeName : String) : Tells [] s (s.recordImplementations typeName) := by
  unfold recordImplementations
  split
  · exact .foldl _ (fun s interface => tells_addConcrete s interface typeName) _ s
  · exact .refl s

theorem TypeMerge.tells_noted (m : TypeMerge) :
    Tells (if m.type.kind.isLeaf then [m.type.name] else []) m.before m.noted := by
  unfold noted
  split
  · refine ⟨fun agree => ?_, fun name => by simp⟩
    rw [ConcreteTypes.ofFacts_append_one, ← agree]
    rfl
  · exact .refl m.before

theorem TypeMerge.tells_joined (m : TypeMerge) : Tells [] m.reported m.joined := by
  unfold joined
  split
  · exact tells_recordMembers ..
  · exact .refl m.reported

theorem tells_merge (isExtension : Bool) (t : TypeDefinition) :
    Tells (if t.kind.isLeaf then [t.name] else []) s (s.merge setting isExtension t) := by
  generalize same : TypeMerge.mk setting isExtension t s = m
  have taken : Tells [] m.noted m.reported := (Tells.of_writes m.writes_taken (by decide) (by decide)).trans
    (.of_writes m.writes_reported (by decide) (by decide))
  have settled : Tells [] m.joined m.settled := (Tells.of_writes m.writes_registered (by decide) (by decide)).trans
    (.of_writes m.writes_settled (by decide) (by decide))
  have all := ((m.tells_noted.trans taken).trans m.tells_joined).trans settled
  subst same
  exact all.trans (tells_recordImplementations ..)

/-! ## The whole walk -/

/-- What a survey says about membership is what it knows of concrete types and of enums and scalars. -/
structure SpeaksFor (s : Survey) : Prop where
  concrete : s.concrete = .ofFacts s.facts
  leaves : ∀ name, .leaf name ∈ s.facts ↔ s.types.isLeaf name = true

theorem speaksFor_start (errors : List Error) : (start errors).SpeaksFor where
  concrete := rfl
  leaves name := by simp [start, Registry.isLeaf, Registry.kind?]

variable {setting s}

/-- A step that touches neither kinds nor membership. -/
theorem SpeaksFor.of_eq {s' : Survey} (before : s.SpeaksFor)
    (kind? : ∀ name, s'.types.kind? name = s.types.kind? name) (concrete : s'.concrete = s.concrete)
    (facts : s'.facts = s.facts) : s'.SpeaksFor where
  concrete := by rw [concrete, facts, before.concrete]
  leaves name := by rw [facts, before.leaves, Registry.isLeaf, Registry.isLeaf, kind?]

/-- Merging a type notes it as a leaf just where it is registered as one, now or before. -/
theorem SpeaksFor.merge (before : s.SpeaksFor) (isExtension : Bool) (t : TypeDefinition)
    (sameKind : ∀ kind, s.types.kind? t.name = some kind → kind = t.kind) :
    (s.merge setting isExtension t).SpeaksFor := by
  have told := tells_merge setting s isExtension t
  refine ⟨told.concrete before.concrete, fun name => ?_⟩
  have kind? := kind?_of_mergesType (mergesType_merge setting isExtension t s) sameKind name
  rw [told.leaves, before.leaves, Registry.isLeaf, Registry.isLeaf, kind?]
  by_cases here : name = t.name
  · subst here
    cases known : s.types.kind? t.name with
    | none => simp
    | some kind =>
      obtain rfl := sameKind kind known
      simp
  · simp [here]

theorem SpeaksFor.look (before : s.SpeaksFor) (l : Look) : (s.look setting l).SpeaksFor := by
  have looked := looked_look setting s l
  generalize s.look setting l = s' at looked ⊢
  cases looked with
  | retained _ _ kept written => exact before.of_eq kept.kind? kept.concrete (written.same .facts (by decide))
  | type sameKind => exact before.merge _ _ sameKind
  | conflict | duplicate => exact before.of_eq (fun _ => rfl) rfl rfl
  | passed => exact before
  | @field isExtension t f entry =>
    have merged := mergesField_mergeField setting t.name entry (s.types.field? t.name f.name) f s
    have written := writes_mergeField setting s t.name entry (s.types.field? t.name f.name) f
    exact before.of_eq (retains_of_mergesField merged).1 merged.concrete (written.same .facts (by decide))

theorem speaksFor_walk (setting : Setting) (errors : List Error) (statements : List Statement) :
    (walk setting errors statements).SpeaksFor :=
  walk_recOn (speaksFor_start errors) fun _ _ _ l _ before => before.look l

end Survey

end Federation
