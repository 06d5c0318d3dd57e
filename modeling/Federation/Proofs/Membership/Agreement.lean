import Mathlib.Data.List.Induction
import Federation.Normalization.Outcome
import Federation.Proofs.Membership.Graph
import Federation.Proofs.Survey.Membership

/-!
# The graph of a subgraph and its concrete types

A subgraph keeps the concrete types of its abstract ones in a table of its own, and says the same of them to the graph
of membership, together with its enums and scalars. Neither is computed from the other: they agree because every step of
the survey feeds both.
-/

namespace Federation

open Schema

namespace ConcreteTypes

/-- Every name that stands in the table, on either side. -/
def mentions (concrete : ConcreteTypes) (name : String) : Prop :=
  name ∈ Table.keys concrete ∨ ∃ abstractName ∈ Table.keys concrete, name ∈ (concrete.of abstractName).toList

theorem of_note (concrete : ConcreteTypes) (fact : Membership.Fact) (typeName : String) :
    ((concrete.note fact).of typeName).toList =
      (concrete.of typeName).toList ++ (fact.concretes typeName).filter (· ∉ (concrete.of typeName).toList) := by
  cases fact with
  | leaf _ => exact (List.append_nil _).symm
  | concrete abstractName concreteName =>
    change (Table.getD (Table.upsert concrete abstractName _) typeName .empty).toList = _
    rw [Table.getD_upsert]
    by_cases here : typeName = abstractName
    · subst here
      have old : ((concrete.get? typeName).getD .empty) = concrete.of typeName := rfl
      rw [if_pos rfl, old, OrderedSet.toList_insert]
      by_cases known : concreteName ∈ (concrete.of typeName).toList <;> simp [Membership.Fact.concretes, known]
    · simp [here, Membership.Fact.concretes, of]

/-- The keys are the types that something is said to be concrete for. -/
theorem mem_keys_ofFacts {facts : List Membership.Fact} {abstractName : String} :
    abstractName ∈ Table.keys (ofFacts facts) ↔ ∃ concreteName, .concrete abstractName concreteName ∈ facts := by
  induction facts using List.reverseRecOn with
  | nil => simp [ofFacts, Table.keys, Table.empty]
  | append_singleton facts fact ih =>
    rw [ofFacts_append_one]
    cases fact with
    | leaf name => simpa [note] using ih
    | concrete a c => simp [note, add, ih, exists_or]

theorem mem_of_ofFacts {facts : List Membership.Fact} {abstractName concreteName : String} :
    concreteName ∈ ((ofFacts facts).of abstractName).toList ↔ .concrete abstractName concreteName ∈ facts := by
  induction facts using List.reverseRecOn with
  | nil => simp [ofFacts]
  | append_singleton facts fact ih =>
    rw [ofFacts_append_one]
    cases fact with
    | leaf name => simpa [note] using ih
    | concrete a c => simp [note, mem_of_add, ih]

theorem mentions_ofFacts {facts : List Membership.Fact} {name : String} :
    (ofFacts facts).mentions name ↔ ∃ other, .concrete name other ∈ facts ∨ .concrete other name ∈ facts := by
  simp only [mentions, mem_keys_ofFacts, mem_of_ofFacts, exists_or]
  exact or_congr_right ⟨fun ⟨other, _, said⟩ => ⟨other, said⟩, fun ⟨other, said⟩ => ⟨other, ⟨name, said⟩, said⟩⟩

end ConcreteTypes

namespace Membership.Graph

theorem isAbstract_traits {fact : Fact} {typeName : String} :
    (fact.traits typeName).isAbstract = true ↔ ∃ concreteName, fact = .concrete typeName concreteName := by
  cases fact with
  | leaf name => by_cases here : typeName = name <;> simp [Fact.traits, here, Traits.leaf, Traits.plain]
  | concrete a c =>
    by_cases here : typeName = a
    · simp [Fact.traits, here, Traits.abstract]
    · simp [Fact.traits, here, Traits.plain, Ne.symm here]

theorem isLeaf_traits {fact : Fact} {typeName : String} :
    (fact.traits typeName).isLeaf = true ↔ fact = .leaf typeName := by
  cases fact with
  | leaf name =>
    by_cases here : typeName = name
    · simp [Fact.traits, here, Traits.leaf]
    · simp [Fact.traits, here, Traits.plain, Ne.symm here]
  | concrete a c => by_cases here : typeName = a <;> simp [Fact.traits, here, Traits.abstract, Traits.plain]

/-- A graph into which facts about one subgraph were written, and nothing else. -/
structure Shows (g : Graph) (subgraph : String) (facts : List Fact) : Prop where
  sound : g.Local
  current : g.subgraph = subgraph
  mem_keys : ∀ key, key ∈ g.keys ↔ key.1 = subgraph ∧ ∃ fact ∈ facts, key.2 ∈ fact.names
  isAbstract : ∀ typeName, (g.traits subgraph typeName).isAbstract = true ↔
    ∃ concreteName, .concrete typeName concreteName ∈ facts
  isLeaf : ∀ typeName, (g.traits subgraph typeName).isLeaf = true ↔ .leaf typeName ∈ facts
  concreteTypeNames : ∀ typeName,
    g.concreteTypeNames subgraph typeName = ((ConcreteTypes.ofFacts facts).of typeName).toList

theorem shows_empty (subgraph : String) : (Store.setSubgraph subgraph empty).Shows subgraph [] where
  sound := local_empty.setSubgraph subgraph
  current := rfl
  mem_keys key := by simp [Store.setSubgraph, empty, keys]
  isAbstract typeName := by simp [Store.setSubgraph, empty, traits, node?, Traits.plain]
  isLeaf typeName := by simp [Store.setSubgraph, empty, traits, node?, Traits.plain]
  concreteTypeNames typeName := rfl

theorem Shows.write {g : Graph} {subgraph : String} {facts : List Fact} (before : g.Shows subgraph facts)
    (fact : Fact) : (Store.write g fact).Shows subgraph (facts ++ [fact]) := by
  obtain ⟨sound, rfl, mem_keys, isAbstract, isLeaf, concreteTypeNames⟩ := before
  have written := writes_write sound fact
  refine ⟨written.sound, written.subgraph, fun key => ?_, fun typeName => ?_, fun typeName => ?_,
    fun typeName => ?_⟩
  · rw [written.mem_keys, mem_keys]
    simp [and_or_left, or_and_right, exists_or]
  · rw [written.traits, Traits.or, Bool.or_eq_true, isAbstract, isAbstract_traits]
    simp [exists_or, eq_comm]
  · rw [written.traits, Traits.or, Bool.or_eq_true, isLeaf, isLeaf_traits]
    simp [eq_comm]
  · rw [written.concreteTypeNames, ConcreteTypes.ofFacts_append_one, ConcreteTypes.of_note, concreteTypeNames]

theorem shows_writeAll (subgraph : String) (facts : List Fact) :
    (Store.writeAll subgraph facts empty).Shows subgraph facts := by
  induction facts using List.reverseRecOn with
  | nil => exact shows_empty subgraph
  | append_singleton facts fact ih =>
    unfold Store.writeAll at ih ⊢
    rw [List.foldl_append]
    exact ih.write fact

/-- A graph tells of a subgraph what its registry and its table of concrete types do. -/
structure Agrees (g : Graph) (subgraph : String) (types : Registry) (concrete : ConcreteTypes) : Prop where
  own : ∀ n ∈ g.nodes, n.subgraph = subgraph
  once : (g.nodes.map Node.typeName).Nodup
  /-- There are nodes for the keys, for the names listed under them, and for enums and scalars. -/
  names : ∀ name, name ∈ g.nodes.map Node.typeName ↔ concrete.mentions name ∨ types.isLeaf name = true
  isAbstract : ∀ n ∈ g.nodes, n.traits.isAbstract = true ↔ n.typeName ∈ Table.keys concrete
  isLeaf : ∀ n ∈ g.nodes, n.traits.isLeaf = true ↔ types.isLeaf n.typeName = true
  /-- A type that is no key has no concrete types. -/
  concreteTypeNames : ∀ typeName, g.concreteTypeNames subgraph typeName = (concrete.of typeName).toList

/-- Something is said of a name where it is said to be a leaf, abstract or concrete. -/
theorem exists_names_iff {facts : List Fact} {name : String} : (∃ fact ∈ facts, name ∈ fact.names) ↔
    (∃ other, .concrete name other ∈ facts ∨ .concrete other name ∈ facts) ∨ .leaf name ∈ facts := by
  constructor
  · rintro ⟨_ | ⟨a, c⟩, member, named⟩
    · obtain rfl := List.mem_singleton.mp named
      exact .inr member
    · obtain rfl | named := List.mem_cons.mp named
      · exact .inl ⟨c, .inl member⟩
      · obtain rfl := List.mem_singleton.mp named
        exact .inl ⟨a, .inr member⟩
  · rintro (⟨other, said | said⟩ | said)
    · exact ⟨_, said, List.mem_cons_self⟩
    · exact ⟨_, said, List.mem_cons_of_mem _ List.mem_cons_self⟩
    · exact ⟨_, said, List.mem_cons_self⟩

theorem Shows.agrees {g : Graph} {subgraph : String} {s : Survey} (shown : g.Shows subgraph s.facts)
    (speaks : s.SpeaksFor) : g.Agrees subgraph s.types s.concrete := by
  have own : ∀ n ∈ g.nodes, n.subgraph = subgraph := fun n member =>
    ((shown.mem_keys n.key).mp (List.mem_map_of_mem member)).1
  have said : ∀ n ∈ g.nodes, g.traits subgraph n.typeName = n.traits := fun n member =>
    own n member ▸ traits_of_mem shown.sound.toTidy member
  refine ⟨own, ?_, fun name => ?_, fun n member => ?_, fun n member => ?_, fun typeName => ?_⟩
  · -- Keys stand once, and all of them are of one subgraph.
    refine List.Nodup.map_on (fun n member n' member' same => ?_) (shown.sound.keys.of_map Node.key)
    refine List.inj_on_of_nodup_map shown.sound.keys member member' (Prod.ext ?_ same)
    exact (own n member).trans (own n' member').symm
  · have there : name ∈ g.nodes.map Node.typeName ↔ (subgraph, name) ∈ g.keys := by
      simp only [keys, List.mem_map, Node.key, Prod.mk.injEq]
      exact exists_congr fun n => and_congr_right fun member => (and_iff_right (own n member)).symm
    rw [there, shown.mem_keys, ← speaks.leaves, speaks.concrete, ConcreteTypes.mentions_ofFacts, exists_names_iff]
    exact and_iff_right rfl
  · rw [← said n member, shown.isAbstract, speaks.concrete, ConcreteTypes.mem_keys_ofFacts]
  · rw [← said n member, shown.isLeaf, speaks.leaves]
  · rw [shown.concreteTypeNames, speaks.concrete]

end Membership.Graph

/-- Whatever a subgraph says, valid or not, and whatever its name, a new graph that it is normalized against agrees with
its registry and with its table of concrete types. -/
theorem agrees_normalizeInto (options : NormalizationOptions) (statements : List Statement) :
    let survey := (Assembly.of options.subgraph options.maxOrScopes statements).survey
    (normalizeInto options statements Membership.Graph.empty).2.Agrees options.subgraph survey.types survey.concrete :=
  (Membership.Graph.shows_writeAll _ _).agrees (Survey.speaksFor_walk ..)

end Federation
