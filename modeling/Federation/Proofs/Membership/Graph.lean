import Mathlib.Data.List.Nodup
import Federation.Membership.Graph

/-!
# The graph as its keys and its connections

A node is found by its subgraph and its type name, and an edge by the two nodes that it connects. What is read from a
graph depends on these alone: writing a type adds a key that is new, and writing an edge adds a connection that is new.
-/

namespace Federation.Membership

/-- What a node is found by. -/
def Node.key (n : Node) : String × String := (n.subgraph, n.typeName)

namespace Graph

def keys (g : Graph) : List (String × String) := g.nodes.map Node.key

def connections (g : Graph) : List (Nat × Nat) := g.edges.map fun e => (e.source, e.target)

/-- The names of the types that a node is connected to, in the order of arrival. -/
def targets (g : Graph) (id : Nat) : List String :=
  (g.connections.filter (·.1 = id)).filterMap fun c => g.keys[c.2]?.map Prod.snd

/-- What was said of a type so far. -/
def traits (g : Graph) (subgraph typeName : String) : Traits :=
  ((g.node? subgraph typeName).map Node.traits).getD .plain

/-- There is one node for each key, and edges connect nodes that are there. -/
structure Tidy (g : Graph) : Prop where
  keys : g.keys.Nodup
  connects : ∀ c ∈ g.connections, c.1 < g.keys.length ∧ c.2 < g.keys.length

theorem tidy_empty : empty.Tidy := ⟨List.nodup_nil, nofun⟩

/-! ## Reading -/

section Reading

variable {g : Graph} {subgraph typeName : String}

theorem getElem?_keys_of_id? {i : Nat} (found : g.id? subgraph typeName = some i) :
    g.keys[i]? = some (subgraph, typeName) := by
  obtain ⟨inside, here, -⟩ := List.findIdx?_eq_some_iff_getElem.mp found
  have same : g.nodes[i].subgraph = subgraph ∧ g.nodes[i].typeName = typeName := by simpa using here
  simp [keys, Node.key, inside, same]

theorem id?_eq_none_iff : g.id? subgraph typeName = none ↔ (subgraph, typeName) ∉ g.keys := by
  simp [id?, keys, Node.key, List.findIdx?_eq_none_iff]

/-- The identifier of a type is the place of its key. -/
theorem id?_eq_some_iff (tidy : g.Tidy) {i : Nat} :
    g.id? subgraph typeName = some i ↔ g.keys[i]? = some (subgraph, typeName) := by
  refine ⟨getElem?_keys_of_id?, fun there => ?_⟩
  cases found : g.id? subgraph typeName with
  | none => exact absurd (List.mem_of_getElem? there) (id?_eq_none_iff.mp found)
  | some j =>
    obtain ⟨inside, _⟩ := List.getElem?_eq_some_iff.mp there
    rw [(List.getElem?_inj inside tidy.keys).mp (there.trans (getElem?_keys_of_id? found).symm)]

theorem node?_of_mem (tidy : g.Tidy) {n : Node} (member : n ∈ g.nodes) :
    g.node? n.subgraph n.typeName = some n := by
  obtain ⟨first, found⟩ : ∃ first, g.node? n.subgraph n.typeName = some first :=
    Option.isSome_iff_exists.mp (List.find?_isSome.mpr ⟨n, member, by simp⟩)
  have same : first.subgraph = n.subgraph ∧ first.typeName = n.typeName := by simpa using List.find?_some found
  rw [found, List.inj_on_of_nodup_map tidy.keys (List.mem_of_find?_eq_some found) member (Prod.ext same.1 same.2)]

theorem traits_of_mem (tidy : g.Tidy) {n : Node} (member : n ∈ g.nodes) :
    g.traits n.subgraph n.typeName = n.traits := by
  simp [traits, node?_of_mem tidy member]

theorem concreteTypeNames_eq (g : Graph) (subgraph typeName : String) :
    g.concreteTypeNames subgraph typeName = ((g.id? subgraph typeName).map g.targets).getD [] := by
  unfold concreteTypeNames
  cases g.id? subgraph typeName with
  | none => rfl
  | some i =>
    simp only [targets, connections, keys, List.filter_map, List.filterMap_map, Option.map_some, Option.getD_some,
      List.getElem?_map, Option.map_map]
    rfl

theorem mem_targets {id : Nat} {name : String} :
    name ∈ g.targets id ↔
      ∃ target subgraph, (id, target) ∈ g.connections ∧ g.keys[target]? = some (subgraph, name) := by
  simp only [targets, List.mem_filterMap, List.mem_filter, decide_eq_true_eq, Option.map_eq_some_iff, Prod.exists]
  constructor
  · rintro ⟨_, target, ⟨member, rfl⟩, subgraph, _, there, rfl⟩
    exact ⟨target, subgraph, member, there⟩
  · rintro ⟨target, subgraph, member, there⟩
    exact ⟨id, target, ⟨member, rfl⟩, subgraph, name, there, rfl⟩

/-- Behind the last node there is nothing to connect. -/
theorem Tidy.targets_eq_nil (tidy : g.Tidy) {id : Nat} (outside : g.keys.length ≤ id) : g.targets id = [] := by
  have none : g.connections.filter (·.1 = id) = [] := by
    refine List.filter_eq_nil_iff.mpr fun c member same => ?_
    have inside := (tidy.connects c member).1
    simp only [decide_eq_true_eq] at same
    omega
  rw [targets, none]
  rfl

end Reading

/-! ## Writing a type -/

section AddType

variable (g : Graph) (typeName : String) (traits : Traits)

theorem keys_addType : (g.addType typeName traits).2.keys =
    if (g.subgraph, typeName) ∈ g.keys then g.keys else g.keys ++ [(g.subgraph, typeName)] := by
  unfold addType
  cases found : g.id? g.subgraph typeName with
  | none =>
    rw [if_neg (id?_eq_none_iff.mp found)]
    simp [keys, Node.key]
  | some i =>
    rw [if_pos (List.mem_of_getElem? (getElem?_keys_of_id? found))]
    refine List.ext_getElem? fun j => ?_
    simp only [keys, List.getElem?_map, List.getElem?_modify]
    cases g.nodes[j]? with
    | none => rfl
    | some n => by_cases here : i = j <;> simp [here, Node.key]

theorem connections_addType : (g.addType typeName traits).2.connections = g.connections := by
  unfold addType connections
  cases g.id? g.subgraph typeName <;> rfl

theorem subgraph_addType : (g.addType typeName traits).2.subgraph = g.subgraph := by
  unfold addType
  cases g.id? g.subgraph typeName <;> rfl

/-- The identifier that is handed out leads to the type. -/
theorem getElem?_keys_addType : (g.addType typeName traits).2.keys[(g.addType typeName traits).1]? =
    some (g.subgraph, typeName) := by
  rw [keys_addType]
  unfold addType
  cases found : g.id? g.subgraph typeName with
  | none =>
    rw [if_neg (id?_eq_none_iff.mp found)]
    simp [keys]
  | some i =>
    have there := getElem?_keys_of_id? found
    rw [if_pos (List.mem_of_getElem? there)]
    exact there

theorem keys_prefix_addType : g.keys <+: (g.addType typeName traits).2.keys := by
  rw [keys_addType]
  split
  · exact List.prefix_refl _
  · exact List.prefix_append _ _

/-- What was said of a type stays true, and nothing is said of others. -/
theorem node?_addType (subgraph other : String) : (g.addType typeName traits).2.node? subgraph other =
    if subgraph = g.subgraph ∧ other = typeName then
      some ⟨subgraph, other, (((g.node? subgraph other).map Node.traits).getD .plain).or traits⟩
    else g.node? subgraph other := by
  obtain ⟨nodes, edges, current⟩ := g
  unfold addType node? id?
  dsimp only
  induction nodes with
  | nil =>
    by_cases here : subgraph = current ∧ other = typeName
    · simp [here, Traits.or, Traits.plain]
    · have apart : ¬ (current = subgraph ∧ typeName = other) := fun same => here ⟨same.1.symm, same.2.symm⟩
      simp [here, apart]
  | cons n rest ih =>
    by_cases first : n.subgraph = current ∧ n.typeName = typeName
    · by_cases here : subgraph = current ∧ other = typeName
      · simp [List.findIdx?_cons, first, here]
      · have apart : ¬ (current = subgraph ∧ typeName = other) := fun same => here ⟨same.1.symm, same.2.symm⟩
        simp [List.findIdx?_cons, first, here, apart]
    · -- The type is looked for behind this node, which stays as it is.
      rw [List.findIdx?_cons, if_neg (by simpa using first)]
      by_cases this : n.subgraph = subgraph ∧ n.typeName = other
      · have apart : ¬ (subgraph = current ∧ other = typeName) := fun here => first (this.1 ▸ this.2 ▸ here)
        rw [if_neg apart]
        cases rest.findIdx? fun n => decide (n.subgraph = current ∧ n.typeName = typeName) <;> simp [this]
      · cases found : rest.findIdx? fun n => decide (n.subgraph = current ∧ n.typeName = typeName) <;>
          (rw [found] at ih; simpa [List.find?_cons, this] using ih)

theorem traits_addType (subgraph other : String) : (g.addType typeName traits).2.traits subgraph other =
    if subgraph = g.subgraph ∧ other = typeName then (g.traits subgraph other).or traits
    else g.traits subgraph other := by
  unfold Graph.traits
  rw [node?_addType]
  split <;> rfl

theorem Tidy.addType {g : Graph} (tidy : g.Tidy) : (g.addType typeName traits).2.Tidy where
  keys := by
    rw [keys_addType]
    split
    · exact tidy.keys
    · next new => exact List.concat_eq_append .. ▸ tidy.keys.concat new
  connects c member := by
    rw [connections_addType] at member
    have inside := tidy.connects c member
    have longer := (keys_prefix_addType g typeName traits).length_le
    omega

/-- A type that is written is not connected to anything that it was not connected to before. -/
theorem concreteTypeNames_addType {g : Graph} (tidy : g.Tidy) (subgraph other : String) :
    (g.addType typeName traits).2.concreteTypeNames subgraph other = g.concreteTypeNames subgraph other := by
  obtain ⟨more, longer⟩ := keys_prefix_addType g typeName traits
  have targets : ∀ id, (g.addType typeName traits).2.targets id = g.targets id := by
    intro id
    unfold Graph.targets
    rw [connections_addType, ← longer]
    refine List.filterMap_congr fun c member => ?_
    rw [List.getElem?_append_left (tidy.connects c (List.mem_of_mem_filter member)).2]
  rw [concreteTypeNames_eq, concreteTypeNames_eq]
  cases found : g.id? subgraph other with
  | some i =>
    have there := getElem?_keys_of_id? found
    have still : (g.addType typeName traits).2.id? subgraph other = some i := by
      obtain ⟨inside, _⟩ := List.getElem?_eq_some_iff.mp there
      rw [id?_eq_some_iff (tidy.addType typeName traits), ← longer, List.getElem?_append_left inside, there]
    rw [still]
    exact targets i
  | none =>
    have absent := id?_eq_none_iff.mp found
    cases now : (g.addType typeName traits).2.id? subgraph other with
    | none => rfl
    | some i =>
      -- The type stands behind all that was there.
      have outside : g.keys.length ≤ i := by
        by_contra inside
        have there := getElem?_keys_of_id? now
        rw [← longer, List.getElem?_append_left (by omega)] at there
        exact absent (List.mem_of_getElem? there)
      exact (targets i).trans (tidy.targets_eq_nil outside)

end AddType

/-! ## Writing an edge -/

section AddEdge

variable (g : Graph) (source target : Nat) (name : String) (isAbstract : Bool)

theorem keys_addEdge : (g.addEdge source target name isAbstract).keys = g.keys := by
  unfold addEdge keys
  dsimp only
  split <;> rfl

theorem subgraph_addEdge : (g.addEdge source target name isAbstract).subgraph = g.subgraph := by
  unfold addEdge
  dsimp only
  split <;> rfl

theorem traits_addEdge (subgraph typeName : String) :
    (g.addEdge source target name isAbstract).traits subgraph typeName = g.traits subgraph typeName := by
  unfold addEdge traits node?
  dsimp only
  split <;> rfl

theorem id?_addEdge (subgraph typeName : String) :
    (g.addEdge source target name isAbstract).id? subgraph typeName = g.id? subgraph typeName := by
  unfold addEdge id?
  dsimp only
  split <;> rfl

theorem connections_addEdge : (g.addEdge source target name isAbstract).connections =
    if (source, target) ∈ g.connections then g.connections else g.connections ++ [(source, target)] := by
  have there : g.edges.any (fun e => decide (e.source = source ∧ e.target = target)) = true ↔
      (source, target) ∈ g.connections := by
    simp [connections]
  unfold addEdge
  dsimp only
  split
  · next old =>
    rw [if_pos (there.mp old)]
    refine (List.map_map ..).trans (List.map_congr_left fun e _ => ?_)
    dsimp only [Function.comp]
    split
    · next same => simp_all
    · rfl
  · next new =>
    rw [if_neg (new ∘ there.mpr)]
    simp [connections]

variable {g source target}

theorem Tidy.addEdge (tidy : g.Tidy) (first : source < g.keys.length) (second : target < g.keys.length) :
    (g.addEdge source target name isAbstract).Tidy where
  keys := (keys_addEdge ..).symm ▸ tidy.keys
  connects c member := by
    rw [connections_addEdge] at member
    rw [keys_addEdge]
    split at member
    · exact tidy.connects c member
    · rcases List.mem_append.mp member with old | new
      · exact tidy.connects c old
      · obtain rfl := List.mem_singleton.mp new
        exact ⟨first, second⟩

/-- A new edge leads to one more type, after those that its source leads to already. -/
theorem targets_addEdge {key : String × String} (leads : g.keys[target]? = some key) (id : Nat) :
    (g.addEdge source target name isAbstract).targets id =
      if id = source ∧ (source, target) ∉ g.connections then g.targets id ++ [key.2] else g.targets id := by
  unfold targets
  rw [connections_addEdge, keys_addEdge]
  by_cases old : (source, target) ∈ g.connections
  · simp [old]
  · by_cases here : id = source
    · simp [old, here, leads]
    · have apart : ¬ source = id := Ne.symm here
      simp [old, here, apart]

/-- Of all types only the source of a new edge gets one more concrete type. -/
theorem concreteTypeNames_addEdge (tidy : g.Tidy) {abstract concrete : String × String}
    (starts : g.keys[source]? = some abstract) (leads : g.keys[target]? = some concrete) (subgraph typeName : String) :
    (g.addEdge source target name isAbstract).concreteTypeNames subgraph typeName =
      if (subgraph, typeName) = abstract ∧ (source, target) ∉ g.connections then
        g.concreteTypeNames subgraph typeName ++ [concrete.2]
      else g.concreteTypeNames subgraph typeName := by
  rw [concreteTypeNames_eq, concreteTypeNames_eq, id?_addEdge]
  have here : g.id? subgraph typeName = some source ↔ (subgraph, typeName) = abstract := by
    rw [id?_eq_some_iff tidy, starts, Option.some_inj, eq_comm]
  cases found : g.id? subgraph typeName with
  | none => rw [if_neg fun new => absurd ((here.mpr new.1).symm.trans found) (Option.some_ne_none _)]; rfl
  | some i =>
    rw [found, Option.some_inj] at here
    simp only [Option.map_some, Option.getD_some, targets_addEdge name isAbstract leads, here]

end AddEdge

end Graph

/-! ## Writing what is said about membership -/

theorem Traits.or_plain (t : Traits) : t.or .plain = t := by
  cases t
  simp [Traits.or, Traits.plain]

namespace Fact

/-- The types that something is said of. -/
def names : Fact → List String
  | leaf typeName => [typeName]
  | concrete abstractName concreteName => [abstractName, concreteName]

/-- What is said of a type. -/
def traits (typeName : String) : Fact → Traits
  | leaf leafName => if typeName = leafName then .leaf else .plain
  | concrete abstractName _ => if typeName = abstractName then .abstract else .plain

/-- What is said to be concrete for a type. -/
def concretes (typeName : String) : Fact → List String
  | leaf _ => []
  | concrete abstractName concreteName => if typeName = abstractName then [concreteName] else []

end Fact

namespace Graph

/-- Types are connected within their subgraphs. -/
structure Local (g : Graph) : Prop extends Tidy g where
  within : ∀ c ∈ g.connections, ∀ source target, g.keys[c.1]? = some source → g.keys[c.2]? = some target →
    source.1 = target.1

theorem local_empty : empty.Local := ⟨tidy_empty, nofun⟩

theorem Local.setSubgraph {g : Graph} (sound : g.Local) (subgraph : String) :
    (Store.setSubgraph subgraph g).Local := ⟨⟨sound.keys, sound.connects⟩, sound.within⟩

theorem Local.addType {g : Graph} (sound : g.Local) (typeName : String) (traits : Traits) :
    (g.addType typeName traits).2.Local where
  toTidy := sound.toTidy.addType typeName traits
  within c member := by
    obtain ⟨more, longer⟩ := keys_prefix_addType g typeName traits
    rw [connections_addType] at member
    have inside := sound.connects c member
    rw [← longer, List.getElem?_append_left inside.1, List.getElem?_append_left inside.2]
    exact sound.within c member

theorem Local.addEdge {g : Graph} (sound : g.Local) {source target : Nat} {subgraph abstract concrete : String}
    (starts : g.keys[source]? = some (subgraph, abstract)) (leads : g.keys[target]? = some (subgraph, concrete))
    (name : String) (isAbstract : Bool) : (g.addEdge source target name isAbstract).Local where
  toTidy := sound.toTidy.addEdge name isAbstract (List.getElem?_eq_some_iff.mp starts).1
    (List.getElem?_eq_some_iff.mp leads).1
  within c member := by
    rw [connections_addEdge] at member
    rw [keys_addEdge]
    split at member
    · exact sound.within c member
    · rcases List.mem_append.mp member with old | new
      · exact sound.within c old
      · obtain rfl := List.mem_singleton.mp new
        simp [starts, leads]

variable {g : Graph}

/-- Within its subgraph an abstract type is connected to the concrete types that it leads to. -/
theorem Local.mem_connections_iff (sound : g.Local) {source target : Nat} {subgraph abstract concrete : String}
    (starts : g.keys[source]? = some (subgraph, abstract)) (leads : g.keys[target]? = some (subgraph, concrete)) :
    (source, target) ∈ g.connections ↔ concrete ∈ g.concreteTypeNames subgraph abstract := by
  rw [concreteTypeNames_eq, (id?_eq_some_iff sound.toTidy).mpr starts, Option.map_some, Option.getD_some, mem_targets]
  constructor
  · exact fun member => ⟨target, subgraph, member, leads⟩
  · rintro ⟨other, subgraph', member, there⟩
    obtain rfl := sound.within _ member _ _ starts there
    obtain ⟨inside, _⟩ := List.getElem?_eq_some_iff.mp leads
    obtain rfl := (List.getElem?_inj inside sound.keys).mp (leads.trans there.symm)
    exact member

/-- What a type that is written does to a graph, and where it is found from then on. -/
structure AddsType (typeName : String) (given : Traits) (g : Graph) (written : Nat × Graph) : Prop where
  sound : written.2.Local
  subgraph : written.2.subgraph = g.subgraph
  keys : g.keys <+: written.2.keys
  mem_keys : ∀ key, key ∈ written.2.keys ↔ key ∈ g.keys ∨ key = (g.subgraph, typeName)
  found : written.2.keys[written.1]? = some (g.subgraph, typeName)
  traits : ∀ other, written.2.traits g.subgraph other =
    if other = typeName then (g.traits g.subgraph other).or given else g.traits g.subgraph other
  concreteTypeNames : ∀ other,
    written.2.concreteTypeNames g.subgraph other = g.concreteTypeNames g.subgraph other

theorem addsType_addType (sound : g.Local) (typeName : String) (given : Traits) :
    AddsType typeName given g (g.addType typeName given) where
  sound := sound.addType typeName given
  subgraph := subgraph_addType ..
  keys := keys_prefix_addType ..
  mem_keys key := by
    rw [keys_addType]
    split
    · next known => exact ⟨.inl, fun h => h.elim id fun same => same ▸ known⟩
    · simp
  found := getElem?_keys_addType ..
  traits other := by simp [traits_addType]
  concreteTypeNames := concreteTypeNames_addType typeName given sound.toTidy g.subgraph

/-- What one fact about membership does to a graph. -/
structure Writes (fact : Fact) (g g' : Graph) : Prop where
  sound : g'.Local
  subgraph : g'.subgraph = g.subgraph
  mem_keys : ∀ subgraph typeName, (subgraph, typeName) ∈ g'.keys ↔
    (subgraph, typeName) ∈ g.keys ∨ (subgraph = g.subgraph ∧ typeName ∈ fact.names)
  traits : ∀ typeName, g'.traits g.subgraph typeName = (g.traits g.subgraph typeName).or (fact.traits typeName)
  /-- A concrete type that is not there yet goes to the end. -/
  concreteTypeNames : ∀ typeName, g'.concreteTypeNames g.subgraph typeName =
    g.concreteTypeNames g.subgraph typeName ++
      (fact.concretes typeName).filter (· ∉ g.concreteTypeNames g.subgraph typeName)

theorem writes_leaf (sound : g.Local) (typeName : String) :
    Writes (.leaf typeName) g (g.addType typeName .leaf).2 := by
  have added := addsType_addType sound typeName .leaf
  refine ⟨added.sound, added.subgraph, fun subgraph other => ?_, fun other => ?_, fun other => ?_⟩
  · exact (added.mem_keys _).trans (by simp [Fact.names])
  · refine (added.traits other).trans ?_
    by_cases here : other = typeName <;> simp [here, Fact.traits, Traits.or_plain]
  · exact (added.concreteTypeNames other).trans (List.append_nil _).symm

/-- The two types are written before the edge between them. -/
theorem writes_concrete {abstractName concreteName : String} {source target : Nat} {g₁ g₂ : Graph}
    (first : AddsType abstractName .abstract g (source, g₁)) (second : AddsType concreteName .plain g₁ (target, g₂)) :
    Writes (.concrete abstractName concreteName) g (g₂.addEdge source target concreteName true) := by
  have leads : g₂.keys[target]? = some (g.subgraph, concreteName) := first.subgraph ▸ second.found
  have starts : g₂.keys[source]? = some (g.subgraph, abstractName) := by
    obtain ⟨more, longer⟩ := second.keys
    rw [← longer, List.getElem?_append_left (List.getElem?_eq_some_iff.mp first.found).1, first.found]
  have names : ∀ other, g₂.concreteTypeNames g.subgraph other = g.concreteTypeNames g.subgraph other := by
    intro other
    rw [← first.concreteTypeNames, ← first.subgraph, second.concreteTypeNames]
  constructor
  case sound => exact second.sound.addEdge starts leads concreteName true
  case subgraph => rw [subgraph_addEdge, second.subgraph, first.subgraph]
  case mem_keys =>
    intro subgraph other
    rw [keys_addEdge, second.mem_keys, first.mem_keys, first.subgraph]
    simp only [Prod.mk.injEq, Fact.names, List.mem_cons, List.not_mem_nil, or_false]
    tauto
  case traits =>
    intro other
    have later := second.traits other
    rw [first.subgraph, first.traits] at later
    rw [traits_addEdge, later, Traits.or_plain, ite_self]
    by_cases here : other = abstractName <;> simp [here, Fact.traits, Traits.or_plain]
  case concreteTypeNames =>
    intro other
    have edge := concreteTypeNames_addEdge concreteName true second.sound.toTidy starts leads g.subgraph other
    simp only [second.sound.mem_connections_iff starts leads, names] at edge
    rw [edge]
    by_cases here : other = abstractName
    · subst here
      by_cases known : concreteName ∈ g.concreteTypeNames g.subgraph other <;> simp [Fact.concretes, known]
    · simp [here, Fact.concretes]

theorem writes_write (sound : g.Local) (fact : Fact) : Writes fact g (Store.write g fact) := by
  cases fact with
  | leaf typeName => exact writes_leaf sound typeName
  | concrete abstractName concreteName =>
    have first := addsType_addType sound abstractName .abstract
    exact writes_concrete first (addsType_addType first.sound concreteName .plain)

end Graph

end Federation.Membership
