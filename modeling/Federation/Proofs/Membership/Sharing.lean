import Federation.Normalization.Outcome
import Federation.Proofs.Membership.Graph
import Federation.Proofs.Membership.Replay

/-!
# Normalizations that share a graph

A normalization tells the graph what its subgraph says about membership. It adds to what the graph holds of that
subgraph and leaves everything else as it is. What was told once is not changed by being told again.
-/

namespace Federation

namespace Membership

/-- Of a type no more is said by the first than by the second. -/
def Traits.Within (a b : Traits) : Prop :=
  (a.isAbstract = true → b.isAbstract = true) ∧ (a.isLeaf = true → b.isLeaf = true)

namespace Traits

variable {a b c : Traits}

theorem Within.refl (a : Traits) : a.Within a := ⟨id, id⟩

theorem Within.trans (first : a.Within b) (second : b.Within c) : a.Within c :=
  ⟨second.1 ∘ first.1, second.2 ∘ first.2⟩

theorem plain_within (a : Traits) : plain.Within a := by
  constructor <;> exact fun marked => absurd marked Bool.false_ne_true

theorem within_or_left (a b : Traits) : a.Within (a.or b) := by
  simp +contextual [Within, or]

theorem within_or_right (a b : Traits) : b.Within (a.or b) := by
  simp +contextual [Within, or]

/-- What is said already adds nothing. -/
theorem or_of_within (within : b.Within a) : a.or b = a := by
  obtain ⟨_ | _, _ | _⟩ := a <;> obtain ⟨_ | _, _ | _⟩ := b <;> simp_all [Within, or]

end Traits

namespace Graph

variable {g g' g'' : Graph} {subgraph : String}

/-! ## What grows -/

/-- From one graph to the other nothing is removed, and only what is held of one subgraph grows. -/
structure Grows (subgraph : String) (g g' : Graph) : Prop where
  /-- No node is removed, and each keeps its identifier. -/
  keys : g.keys <+: g'.keys
  edges : g.edges <+: g'.edges
  traits : ∀ other typeName, (g.traits other typeName).Within (g'.traits other typeName)
  /-- All else is held as before of all other subgraphs. -/
  id? : ∀ other, other ≠ subgraph → ∀ typeName, g'.id? other typeName = g.id? other typeName
  node? : ∀ other, other ≠ subgraph → ∀ typeName, g'.node? other typeName = g.node? other typeName
  concreteTypeNames : ∀ other, other ≠ subgraph → ∀ typeName,
    g'.concreteTypeNames other typeName = g.concreteTypeNames other typeName

namespace Grows

theorem refl (subgraph : String) (g : Graph) : Grows subgraph g g where
  keys := List.prefix_refl _
  edges := List.prefix_refl _
  traits _ _ := .refl _
  id? _ _ _ := rfl
  node? _ _ _ := rfl
  concreteTypeNames _ _ _ := rfl

theorem trans (first : Grows subgraph g g') (second : Grows subgraph g' g'') : Grows subgraph g g'' where
  keys := first.keys.trans second.keys
  edges := first.edges.trans second.edges
  traits other typeName := (first.traits other typeName).trans (second.traits other typeName)
  id? other apart typeName := (second.id? other apart typeName).trans (first.id? other apart typeName)
  node? other apart typeName := (second.node? other apart typeName).trans (first.node? other apart typeName)
  concreteTypeNames other apart typeName :=
    (second.concreteTypeNames other apart typeName).trans (first.concreteTypeNames other apart typeName)

end Grows

/-- Edges are written as normalizations do: with the name of the type that each leads to, and for an abstract type. -/
structure Regular (g : Graph) : Prop extends Local g where
  named : ∀ e ∈ g.edges, e.isAbstract = true ∧ (g.keys[e.target]?).map Prod.snd = some e.name

theorem regular_empty : empty.Regular := ⟨local_empty, nofun⟩

theorem Regular.setSubgraph (regular : g.Regular) (subgraph : String) : (Store.setSubgraph subgraph g).Regular :=
  ⟨regular.toLocal.setSubgraph subgraph, regular.named⟩

theorem grows_setSubgraph (subgraph : String) (g : Graph) : Grows subgraph g (Store.setSubgraph subgraph g) :=
  { Grows.refl subgraph g with }

/-! ### One type more -/

section AddType

variable (typeName : String) (given : Traits)

theorem edges_addType (g : Graph) : (g.addType typeName given).2.edges = g.edges := by
  unfold addType
  cases g.id? g.subgraph typeName <;> rfl

theorem id?_eq_findIdx? (g : Graph) (subgraph typeName : String) :
    g.id? subgraph typeName = g.keys.findIdx? fun key => key.1 = subgraph ∧ key.2 = typeName := by
  rw [keys, List.findIdx?_map]
  rfl

theorem id?_addType_of_ne (g : Graph) {subgraph : String} (apart : subgraph ≠ g.subgraph) (other : String) :
    (g.addType typeName given).2.id? subgraph other = g.id? subgraph other := by
  rw [id?_eq_findIdx?, id?_eq_findIdx?, keys_addType]
  split
  · rfl
  · have elsewhere : ¬ (g.subgraph = subgraph ∧ typeName = other) := fun same => apart same.1.symm
    simp [List.findIdx?_append, elsewhere]

theorem grows_addType (tidy : g.Tidy) : Grows g.subgraph g (g.addType typeName given).2 where
  keys := keys_prefix_addType ..
  edges := (edges_addType ..).symm ▸ List.prefix_refl _
  traits other typeName' := by
    rw [traits_addType]
    split
    · exact Traits.within_or_left _ _
    · exact .refl _
  id? other apart typeName' := id?_addType_of_ne typeName given g apart typeName'
  node? other apart typeName' := by
    rw [node?_addType, if_neg fun same => apart same.1]
  concreteTypeNames other _ typeName' := concreteTypeNames_addType typeName given tidy other typeName'

theorem Regular.addType (regular : g.Regular) : (g.addType typeName given).2.Regular where
  toLocal := regular.toLocal.addType typeName given
  named e member := by
    rw [edges_addType] at member
    obtain ⟨isAbstract, name⟩ := regular.named e member
    have inside := (regular.connects _ (List.mem_map_of_mem (f := fun e : Edge => (e.source, e.target)) member)).2
    obtain ⟨more, longer⟩ := keys_prefix_addType g typeName given
    rw [← longer, List.getElem?_append_left inside]
    exact ⟨isAbstract, name⟩

end AddType

/-! ### One edge more -/

section AddEdge

variable {source target : Nat} {abstract concrete : String}

/-- An edge that is written again is left as it is. -/
theorem edges_addEdge (regular : g.Regular) (leads : g.keys[target]? = some (subgraph, concrete)) :
    (g.addEdge source target concrete true).edges =
      if (source, target) ∈ g.connections then g.edges else g.edges ++ [⟨source, target, concrete, true⟩] := by
  have there : g.edges.any (fun e => decide (e.source = source ∧ e.target = target)) = true ↔
      (source, target) ∈ g.connections := by
    simp [connections]
  unfold Graph.addEdge
  dsimp only
  by_cases old : (source, target) ∈ g.connections
  · rw [if_pos (there.mpr old), if_pos old]
    refine (List.map_congr_left fun e member => ?_).trans (List.map_id _)
    split
    · next same =>
      obtain ⟨rfl, rfl⟩ := decide_eq_true_eq.mp same
      obtain ⟨isAbstract, name⟩ := regular.named e member
      -- In a regular graph the edge has the name and the mark that it is written with now.
      obtain rfl : concrete = e.name := by simpa [leads] using name
      cases e
      simp_all
    · rfl
  · rw [if_neg (old ∘ there.mp), if_neg old]

theorem grows_addEdge (regular : g.Regular) (starts : g.keys[source]? = some (subgraph, abstract))
    (leads : g.keys[target]? = some (subgraph, concrete)) :
    Grows subgraph g (g.addEdge source target concrete true) where
  keys := (keys_addEdge ..).symm ▸ List.prefix_refl _
  edges := by
    rw [edges_addEdge regular leads]
    split
    · exact List.prefix_refl _
    · exact List.prefix_append _ _
  traits other typeName := by
    rw [traits_addEdge]
    exact .refl _
  id? other _ typeName := id?_addEdge ..
  node? other _ typeName := by
    unfold Graph.addEdge Graph.node?
    dsimp only
    split <;> rfl
  concreteTypeNames other apart typeName := by
    rw [concreteTypeNames_addEdge concrete true regular.toTidy starts leads, if_neg]
    exact fun new => apart (congrArg Prod.fst new.1)

theorem Regular.addEdge (regular : g.Regular) (starts : g.keys[source]? = some (subgraph, abstract))
    (leads : g.keys[target]? = some (subgraph, concrete)) : (g.addEdge source target concrete true).Regular where
  toLocal := regular.toLocal.addEdge starts leads concrete true
  named e member := by
    rw [edges_addEdge regular leads] at member
    rw [keys_addEdge]
    split at member
    · exact regular.named e member
    · rcases List.mem_append.mp member with old | new
      · exact regular.named e old
      · obtain rfl := List.mem_singleton.mp new
        simp [leads]

end AddEdge

/-! ### One fact more -/

theorem write_concrete (g : Graph) (abstractName concreteName : String) :
    Store.write g (.concrete abstractName concreteName) =
      ((g.addType abstractName .abstract).2.addType concreteName .plain).2.addEdge
        (g.addType abstractName .abstract).1 ((g.addType abstractName .abstract).2.addType concreteName .plain).1
        concreteName true := rfl

/-- The edge of a fact leads from the abstract type to the concrete one. -/
theorem ends_of_concrete (g : Graph) (abstractName concreteName : String) :
    let keys := ((g.addType abstractName .abstract).2.addType concreteName .plain).2.keys
    keys[(g.addType abstractName .abstract).1]? = some (g.subgraph, abstractName) ∧
      keys[((g.addType abstractName .abstract).2.addType concreteName .plain).1]? =
        some (g.subgraph, concreteName) := by
  have found := getElem?_keys_addType g abstractName .abstract
  have same := subgraph_addType g abstractName .abstract
  generalize g.addType abstractName .abstract = first at found same ⊢
  constructor
  · obtain ⟨more, longer⟩ := keys_prefix_addType first.2 concreteName .plain
    rw [← longer, List.getElem?_append_left (List.getElem?_eq_some_iff.mp found).1]
    exact found
  · rw [← same]
    exact getElem?_keys_addType ..

theorem regular_write (regular : g.Regular) (fact : Fact) : (Store.write g fact).Regular := by
  cases fact with
  | leaf typeName => exact regular.addType typeName .leaf
  | concrete abstractName concreteName =>
    obtain ⟨starts, leads⟩ := ends_of_concrete g abstractName concreteName
    exact ((regular.addType abstractName .abstract).addType concreteName .plain).addEdge starts leads

theorem grows_write (regular : g.Regular) (fact : Fact) : Grows g.subgraph g (Store.write g fact) := by
  cases fact with
  | leaf typeName => exact grows_addType typeName .leaf regular.toTidy
  | concrete abstractName concreteName =>
    -- The types stay in the current subgraph, and so the edge is between types of that subgraph.
    have first := grows_addType abstractName .abstract regular.toTidy
    have regular₁ := regular.addType abstractName .abstract
    have second := grows_addType concreteName .plain regular₁.toTidy
    rw [subgraph_addType] at second
    obtain ⟨starts, leads⟩ := ends_of_concrete g abstractName concreteName
    exact (first.trans second).trans (grows_addEdge (regular₁.addType concreteName .plain) starts leads)

/-! ## What is known -/

/-- A fact about a type of the current subgraph adds nothing to what is said of it. -/
structure Knows (g : Graph) (fact : Fact) : Prop where
  names : ∀ typeName ∈ fact.names, (g.subgraph, typeName) ∈ g.keys
  traits : ∀ typeName, (fact.traits typeName).Within (g.traits g.subgraph typeName)
  concretes : ∀ typeName, ∀ name ∈ fact.concretes typeName, name ∈ g.concreteTypeNames g.subgraph typeName

theorem Writes.knows {fact : Fact} (writes : Writes fact g g') : g'.Knows fact where
  names typeName named := by
    rw [writes.subgraph, writes.mem_keys]
    exact .inr ⟨rfl, named⟩
  traits typeName := by
    rw [writes.subgraph, writes.traits]
    exact Traits.within_or_right _ _
  concretes typeName name listed := by
    rw [writes.subgraph, writes.concreteTypeNames, List.mem_append, List.mem_filter]
    by_cases known : name ∈ g.concreteTypeNames g.subgraph typeName
    · exact .inl known
    · exact .inr ⟨listed, by simpa using known⟩

/-- What is known stays known. -/
theorem Writes.knows_of_knows {fact other : Fact} (writes : Writes fact g g') (knows : g.Knows other) :
    g'.Knows other where
  names typeName named := by
    rw [writes.subgraph, writes.mem_keys]
    exact .inl (knows.names typeName named)
  traits typeName := by
    rw [writes.subgraph, writes.traits]
    exact (knows.traits typeName).trans (Traits.within_or_left _ _)
  concretes typeName name listed := by
    rw [writes.subgraph, writes.concreteTypeNames]
    exact List.mem_append_left _ (knows.concretes typeName name listed)

theorem addType_of_known (tidy : g.Tidy) {typeName : String} {given : Traits} (there : (g.subgraph, typeName) ∈ g.keys)
    (said : given.Within (g.traits g.subgraph typeName)) : (g.addType typeName given).2 = g := by
  obtain ⟨i, found⟩ : ∃ i, g.id? g.subgraph typeName = some i :=
    Option.ne_none_iff_exists'.mp fun missing => id?_eq_none_iff.mp missing there
  have same : ∀ n, g.nodes[i]? = some n → { n with traits := n.traits.or given } = n := by
    intro n stands
    obtain ⟨own, rfl⟩ : n.subgraph = g.subgraph ∧ n.typeName = typeName := by
      have key := getElem?_keys_of_id? found
      simpa [keys, stands, Node.key] using key
    rw [← own, traits_of_mem tidy (List.mem_of_getElem? stands)] at said
    rw [Traits.or_of_within said]
  have nodes : (g.nodes.modify i fun n => { n with traits := n.traits.or given }) = g.nodes := by
    refine List.ext_getElem? fun j => ?_
    rw [List.getElem?_modify]
    split
    · next here =>
      subst here
      cases stands : g.nodes[i]? with
      | none => rfl
      | some n => exact congrArg some (same n stands)
    · exact Option.map_id' ..
  simp only [addType, found, nodes]

theorem addEdge_of_known (regular : g.Regular) {source target : Nat} {concrete : String}
    (leads : g.keys[target]? = some (subgraph, concrete)) (there : (source, target) ∈ g.connections) :
    g.addEdge source target concrete true = g := by
  have only : g.addEdge source target concrete true =
      { g with edges := (g.addEdge source target concrete true).edges } := by
    unfold Graph.addEdge
    dsimp only
    split <;> rfl
  rw [only, edges_addEdge regular leads, if_pos there]

/-- To write what is known changes nothing. -/
theorem write_of_knows (regular : g.Regular) {fact : Fact} (knows : g.Knows fact) : Store.write g fact = g := by
  cases fact with
  | leaf typeName =>
    apply addType_of_known regular.toTidy (knows.names typeName (by simp [Fact.names]))
    simpa [Fact.traits] using knows.traits typeName
  | concrete abstractName concreteName =>
    have first : (g.addType abstractName .abstract).2 = g := by
      apply addType_of_known regular.toTidy (knows.names abstractName (by simp [Fact.names]))
      simpa [Fact.traits] using knows.traits abstractName
    have second : (g.addType concreteName .plain).2 = g := by
      apply addType_of_known regular.toTidy (knows.names concreteName (by simp [Fact.names]))
      exact Traits.plain_within _
    obtain ⟨starts, leads⟩ := ends_of_concrete g abstractName concreteName
    rw [write_concrete]
    rw [first, second] at starts leads ⊢
    apply addEdge_of_known regular leads
    rw [regular.mem_connections_iff starts leads]
    exact knows.concretes abstractName concreteName (by simp [Fact.concretes])

/-! ## All that a subgraph says -/

/-- Facts written one after the other keep a graph regular and let its current subgraph grow. -/
theorem grows_foldl_write (regular : g.Regular) (facts : List Fact) :
    (facts.foldl Store.write g).Regular ∧ (facts.foldl Store.write g).subgraph = g.subgraph ∧
      Grows g.subgraph g (facts.foldl Store.write g) := by
  refine List.foldlRecOn (motive := fun g' : Graph => g'.Regular ∧ g'.subgraph = g.subgraph ∧ Grows g.subgraph g g')
    facts Store.write ⟨regular, rfl, .refl _ _⟩ ?_
  rintro g' ⟨regular', same, so_far⟩ fact -
  have next := grows_write regular' fact
  rw [same] at next
  exact ⟨regular_write regular' fact, (writes_write regular'.toLocal fact).subgraph.trans same, so_far.trans next⟩

theorem knows_foldl_write (regular : g.Regular) {facts : List Fact} {fact : Fact}
    (told : fact ∈ facts ∨ g.Knows fact) : (facts.foldl Store.write g).Knows fact := by
  -- A fact is known from the write that tells it on, and later writes only add to what is known.
  induction facts generalizing g with
  | nil => exact told.resolve_left List.not_mem_nil
  | cons first rest ih =>
    have writes := writes_write regular.toLocal first
    apply ih (regular_write regular first)
    rcases told with member | known
    · rcases List.mem_cons.mp member with rfl | later
      · exact .inr writes.knows
      · exact .inl later
    · exact .inr (writes.knows_of_knows known)

theorem foldl_write_of_knows (regular : g.Regular) {facts : List Fact} (known : ∀ fact ∈ facts, g.Knows fact) :
    facts.foldl Store.write g = g := by
  induction facts with
  | nil => rfl
  | cons first rest ih =>
    obtain ⟨here, later⟩ := List.forall_mem_cons.mp known
    rw [List.foldl_cons, write_of_knows regular here]
    exact ih later

theorem regular_writeAll (regular : g.Regular) (subgraph : String) (facts : List Fact) :
    (Store.writeAll subgraph facts g).Regular :=
  (grows_foldl_write (regular.setSubgraph subgraph) facts).1

theorem grows_writeAll (regular : g.Regular) (subgraph : String) (facts : List Fact) :
    Grows subgraph g (Store.writeAll subgraph facts g) :=
  (grows_setSubgraph subgraph g).trans (grows_foldl_write (regular.setSubgraph subgraph) facts).2.2

/-- What was told once is not changed by being told again. -/
theorem writeAll_writeAll (regular : g.Regular) (subgraph : String) (facts : List Fact) :
    Store.writeAll subgraph facts (Store.writeAll subgraph facts g) = Store.writeAll subgraph facts g := by
  have current := (grows_foldl_write (regular.setSubgraph subgraph) facts).2.1
  have still : Store.setSubgraph subgraph (Store.writeAll subgraph facts g) = Store.writeAll subgraph facts g :=
    congrArg (Graph.mk _ _) current.symm
  rw [Store.writeAll, still]
  apply foldl_write_of_knows (regular_writeAll regular subgraph facts)
  intro fact member
  exact knows_foldl_write (regular.setSubgraph subgraph) (.inl member)

end Graph

end Membership

open Federation.Membership Schema

/-- The graphs that normalizations share: each of them wrote to the graph that the ones before it left, directly or by a
recording that was replayed. -/
inductive Membership.Graph.Reached : Graph → Prop
  | empty : Reached .empty
  | written {g : Graph} (options : NormalizationOptions) (statements : List Statement) (earlier : g.Reached) :
    Reached (normalizeInto options statements g).2
  | replayed {g : Graph} (options : NormalizationOptions) (statements : List Statement) (earlier : g.Reached) :
    Reached ((normalizeInto options statements Recording.empty).2.replay g)

theorem Membership.Graph.Reached.regular {g : Graph} (reached : g.Reached) : g.Regular := by
  induction reached with
  | empty => exact Graph.regular_empty
  | written options statements _ ih => exact Graph.regular_writeAll ih _ _
  | replayed options statements _ ih =>
    rw [normalizeInto, Recording.replay_writeAll]
    exact Graph.regular_writeAll ih _ _

/-- Whether its subgraph is valid or not, a normalization lets nothing grow in a shared graph but what is held of that
subgraph, and a second one leaves the graph as it is and comes to the same. -/
theorem normalizeInto_shares {g : Graph} (reached : g.Reached) (options : NormalizationOptions)
    (statements : List Statement) :
    let (outcome, g') := normalizeInto options statements g
    Graph.Grows options.subgraph g g' ∧ normalizeInto options statements g' = (outcome, g') := by
  constructor
  · exact Graph.grows_writeAll reached.regular _ _
  · exact congrArg (Prod.mk _) (Graph.writeAll_writeAll reached.regular _ _)

/-- An object that implements an interface and others by name. -/
def petSubgraph (name : String) (others : List String) : List Statement :=
  let fields : List FieldDefinition := [⟨"name", none, [], .named "String" false, []⟩]
  [.define (.type ⟨"Pet", none, [], .interface [] fields⟩),
    .define (.type ⟨name, none, [], .object ("Pet" :: others) fields⟩)]

/-- The second subgraph is not valid, since it has no interface `Toy`. What it says is written all the same, and the first
subgraph keeps its own. -/
theorem normalizeInto_shares_pets :
    let shared := (normalizeInto ⟨some "a", 16, false⟩ (petSubgraph "Cat" []) Graph.empty).2
    let (outcome, after) := normalizeInto ⟨some "b", 16, false⟩ (petSubgraph "Dog" ["Toy"]) shared
    shared.Reached ∧ Graph.Grows "b" shared after ∧
      normalizeInto ⟨some "b", 16, false⟩ (petSubgraph "Dog" ["Toy"]) after = (outcome, after) ∧
      outcome.result?.isNone = true ∧ after.concreteTypeNames "a" "Pet" = ["Cat"] ∧
      after.concreteTypeNames "b" "Toy" = ["Dog"] := by
  have reached := Graph.Reached.empty.written ⟨some "a", 16, false⟩ (petSubgraph "Cat" [])
  obtain ⟨grows, again⟩ := normalizeInto_shares reached ⟨some "b", 16, false⟩ (petSubgraph "Dog" ["Toy"])
  refine ⟨reached, grows, again, ?_, ?_, ?_⟩ <;> decide +kernel

end Federation
