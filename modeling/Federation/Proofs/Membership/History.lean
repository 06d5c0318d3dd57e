import Federation.OrderedSet
import Federation.Proofs.Membership.Graph
import Federation.Proofs.Membership.Replay

/-!
# The graph and the calls made on it

What a graph holds is determined by the calls that were made on it. Told without identifiers, these say which types of
which subgraphs were written and which of them were connected. The graph has one node for each such type, with all that
was ever said of it, and one edge for each two types that were connected, both in the order in which they first were.
-/

namespace Federation.Membership

/-- A type of a subgraph. -/
abbrev Key := String × String

/-- What calls tell of types, whatever identifiers they were made with. -/
structure History where
  /-- The subgraph that types are written for. -/
  subgraph : String
  /-- The types that were written and what was said of them, once for each call. -/
  types : List (Key × Traits)
  /-- The types that were connected, once for each call. -/
  links : List (Key × Key)

namespace History

def empty : History := ⟨"", [], []⟩

/-- The identifier that is handed out counts the types written so far, whether they are new or not. -/
def addType (typeName : String) (traits : Traits) (h : History) : Nat × History :=
  (h.types.length, { h with types := h.types ++ [((h.subgraph, typeName), traits)] })

def addEdge (source target : Nat) (h : History) : History :=
  match h.types[source]?, h.types[target]? with
  | some source, some target => { h with links := h.links ++ [(source.1, target.1)] }
  | _, _ => h

instance : Store History where
  setSubgraph subgraph h := { h with subgraph }
  addType := addType
  addEdge source target _ _ := addEdge source target

/-- The types that were ever written, in the order in which they first were. -/
def keys (h : History) : OrderedSet Key := .ofList (h.types.map Prod.fst)

/-- The types that were ever connected, in the order in which they first were. -/
def connected (h : History) : OrderedSet (Key × Key) := .ofList h.links

/-- How many other types were written before a type was written first. -/
def place (h : History) (key : Key) : Nat := h.keys.toList.idxOf key

/-- All that was ever said of a type. -/
def traits (h : History) (key : Key) : Traits where
  isAbstract := h.types.any fun written => written.1 = key && written.2.isAbstract
  isLeaf := h.types.any fun written => written.1 = key && written.2.isLeaf

/-! ## One call more -/

section Calls

variable (h : History) (typeName : String) (given : Traits)

theorem toList_keys_addType : (h.addType typeName given).2.keys.toList =
    if (h.subgraph, typeName) ∈ h.keys.toList then h.keys.toList
    else h.keys.toList ++ [(h.subgraph, typeName)] := by
  have appended : (h.addType typeName given).2.keys = h.keys.insert (h.subgraph, typeName) := by
    simp [keys, addType, OrderedSet.ofList, OrderedSet.insertAll]
  by_cases known : (h.subgraph, typeName) ∈ h.keys.toList <;> simp [appended, OrderedSet.toList_insert, known]

/-- A type keeps its place. -/
theorem place_addType {key : Key} (known : key ∈ h.keys.toList) :
    (h.addType typeName given).2.place key = h.place key := by
  unfold place
  rw [toList_keys_addType]
  split
  · rfl
  · exact List.idxOf_append_of_mem known

theorem traits_addType (key : Key) : (h.addType typeName given).2.traits key =
    if key = (h.subgraph, typeName) then (h.traits key).or given else h.traits key := by
  by_cases here : key = (h.subgraph, typeName)
  · simp [traits, addType, here, Traits.or]
  · have apart : ¬ (h.subgraph, typeName) = key := Ne.symm here
    simp [traits, addType, here, apart]

variable {h} {source target : Nat} {a b : Key × Traits}

theorem addEdge_of_known (first : h.types[source]? = some a) (second : h.types[target]? = some b) :
    h.addEdge source target = { h with links := h.links ++ [(a.1, b.1)] } := by
  simp [addEdge, first, second]

theorem toList_connected_addEdge (first : h.types[source]? = some a) (second : h.types[target]? = some b) :
    (h.addEdge source target).connected.toList =
      if (a.1, b.1) ∈ h.connected.toList then h.connected.toList else h.connected.toList ++ [(a.1, b.1)] := by
  have appended : (h.addEdge source target).connected = h.connected.insert (a.1, b.1) := by
    rw [addEdge_of_known first second]
    simp [connected, OrderedSet.ofList, OrderedSet.insertAll]
  by_cases known : (a.1, b.1) ∈ h.connected.toList <;> simp [appended, OrderedSet.toList_insert, known]

theorem mem_keys_of_types {i : Nat} {written : Key × Traits} (found : h.types[i]? = some written) :
    written.1 ∈ h.keys.toList :=
  OrderedSet.mem_ofList.mpr (List.mem_map_of_mem (List.mem_of_getElem? found))

/-- Types that were written are told apart by their places. -/
theorem place_inj {key key' : Key} (known : key ∈ h.keys.toList) : h.place key = h.place key' ↔ key = key' :=
  List.idxOf_inj known

end Calls

end History

/-! ## A graph in the course of calls -/

/-- A graph stands where a history of calls leads, and handed out the given identifiers in its course. -/
structure Graph.Follows (h : History) (ids : List Nat) (g : Graph) : Prop where
  tidy : g.Tidy
  subgraph : g.subgraph = h.subgraph
  keys : g.keys = h.keys.toList
  traits : ∀ key : Key, g.traits key.1 key.2 = h.traits key
  /-- What was handed out for a type stays its place. -/
  ids : ids = h.types.map fun written => h.place written.1
  written : ∀ link ∈ h.connected.toList, link.1 ∈ h.keys.toList ∧ link.2 ∈ h.keys.toList
  connections : g.connections = h.connected.toList.map fun link => (h.place link.1, h.place link.2)

namespace Graph

variable {h : History} {ids : List Nat} {g : Graph}

theorem follows_empty : empty.Follows .empty [] where
  tidy := tidy_empty
  subgraph := rfl
  keys := rfl
  traits _ := rfl
  ids := rfl
  written := nofun
  connections := rfl

theorem Follows.setSubgraph (before : g.Follows h ids) (subgraph : String) :
    (Store.setSubgraph subgraph g).Follows (Store.setSubgraph subgraph h) ids where
  tidy := ⟨before.tidy.keys, before.tidy.connects⟩
  subgraph := rfl
  keys := before.keys
  traits := before.traits
  ids := before.ids
  written := before.written
  connections := before.connections

theorem Follows.addType (before : g.Follows h ids) (typeName : String) (given : Traits) :
    (g.addType typeName given).2.Follows (h.addType typeName given).2 (ids ++ [(g.addType typeName given).1]) := by
  have tidy := before.tidy.addType typeName given
  have keys : (g.addType typeName given).2.keys = (h.addType typeName given).2.keys.toList := by
    rw [keys_addType, History.toList_keys_addType, before.keys, before.subgraph]
  have grown : ∀ key ∈ h.keys.toList, key ∈ (h.addType typeName given).2.keys.toList := by
    intro key known
    rw [History.toList_keys_addType]
    split
    · exact known
    · exact List.mem_append_left _ known
  -- The identifier leads to the type, and no key stands at two places.
  have handedOut : (g.addType typeName given).1 = (h.addType typeName given).2.place (h.subgraph, typeName) := by
    have found := getElem?_keys_addType g typeName given
    obtain ⟨inside, there⟩ := List.getElem?_eq_some_iff.mp found
    rw [History.place, ← keys, ← before.subgraph, ← there]
    exact (tidy.keys.idxOf_getElem _ inside).symm
  refine ⟨tidy, ?_, keys, fun key => ?_, ?_, fun link member => ?_, ?_⟩
  · exact (subgraph_addType ..).trans before.subgraph
  · rw [Graph.traits_addType, History.traits_addType, before.traits, before.subgraph]
    simp only [Prod.ext_iff]
  · have earlier : ∀ written ∈ h.types,
        h.place written.1 = (h.addType typeName given).2.place written.1 := by
      intro written member
      exact (h.place_addType typeName given (OrderedSet.mem_ofList.mpr (List.mem_map_of_mem member))).symm
    rw [handedOut, before.ids, List.map_congr_left earlier]
    simp [History.addType]
  · obtain ⟨first, second⟩ := before.written link member
    exact ⟨grown _ first, grown _ second⟩
  · rw [connections_addType, before.connections]
    apply List.map_congr_left
    intro link member
    obtain ⟨first, second⟩ := before.written link member
    rw [h.place_addType typeName given first, h.place_addType typeName given second]

theorem Follows.addEdge (before : g.Follows h ids) {i j source target : Nat} (first : ids[i]? = some source)
    (second : ids[j]? = some target) (name : String) (isAbstract : Bool) :
    (g.addEdge source target name isAbstract).Follows (h.addEdge i j) ids := by
  obtain ⟨a, starts, rfl⟩ : ∃ a, h.types[i]? = some a ∧ h.place a.1 = source := by
    simpa [before.ids] using first
  obtain ⟨b, leads, rfl⟩ : ∃ b, h.types[j]? = some b ∧ h.place b.1 = target := by
    simpa [before.ids] using second
  have starts' := History.mem_keys_of_types starts
  have leads' := History.mem_keys_of_types leads
  have inside : ∀ key ∈ h.keys.toList, h.place key < g.keys.length := by
    intro key known
    rw [before.keys]
    exact List.idxOf_lt_length_of_mem known
  -- Types are told apart by their places, so an edge is new just where the link is.
  have known_iff : (h.place a.1, h.place b.1) ∈ g.connections ↔ (a.1, b.1) ∈ h.connected.toList := by
    rw [before.connections, List.mem_map]
    constructor
    · rintro ⟨link, member, same⟩
      obtain ⟨known, known'⟩ := before.written link member
      obtain ⟨same, same'⟩ := Prod.ext_iff.mp same
      rw [← (History.place_inj known).mp same, ← (History.place_inj known').mp same']
      exact member
    · intro member
      exact ⟨_, member, rfl⟩
  have recorded := History.addEdge_of_known starts leads
  have connected := History.toList_connected_addEdge starts leads
  rw [recorded] at connected ⊢
  refine ⟨?_, ?_, ?_, fun key => ?_, before.ids, fun link member => ?_, ?_⟩
  · exact before.tidy.addEdge name isAbstract (inside _ starts') (inside _ leads')
  · exact (subgraph_addEdge ..).trans before.subgraph
  · exact (keys_addEdge ..).trans before.keys
  · exact (traits_addEdge ..).trans (before.traits key)
  · rw [connected] at member
    split at member
    · exact before.written link member
    · rcases List.mem_append.mp member with old | new
      · exact before.written link old
      · obtain rfl := List.mem_singleton.mp new
        exact ⟨starts', leads'⟩
  · rw [connections_addEdge, connected]
    by_cases old : (a.1, b.1) ∈ h.connected.toList
    · rw [if_pos old, if_pos (known_iff.mpr old)]
      exact before.connections
    · rw [if_neg old, if_neg (old ∘ known_iff.mp), before.connections, List.map_append]
      rfl

/-! ## What is read from it -/

theorem Tidy.nodes_eq (tidy : g.Tidy) :
    g.nodes = g.keys.map fun key => ⟨key.1, key.2, g.traits key.1 key.2⟩ := by
  rw [Graph.keys, List.map_map]
  refine (List.map_id g.nodes).symm.trans (List.map_congr_left fun n member => ?_)
  simp [Node.key, traits_of_mem tidy member]

theorem Follows.nodes (follows : g.Follows h ids) :
    g.nodes = h.keys.toList.map fun key => ⟨key.1, key.2, h.traits key⟩ := by
  rw [follows.tidy.nodes_eq, follows.keys]
  exact List.map_congr_left fun key _ => by rw [follows.traits]

theorem Follows.id? (follows : g.Follows h ids) (subgraph typeName : String) : g.id? subgraph typeName =
    if (subgraph, typeName) ∈ h.keys.toList then some (h.place (subgraph, typeName)) else none := by
  split
  · next known =>
    rw [id?_eq_some_iff follows.tidy, follows.keys]
    exact List.getElem?_idxOf known
  · next unknown => rw [id?_eq_none_iff, follows.keys]; exact unknown

theorem Follows.node? (follows : g.Follows h ids) (subgraph typeName : String) : g.node? subgraph typeName =
    if (subgraph, typeName) ∈ h.keys.toList then some ⟨subgraph, typeName, h.traits (subgraph, typeName)⟩
    else none := by
  split
  · next known =>
    have member : ⟨subgraph, typeName, h.traits (subgraph, typeName)⟩ ∈ g.nodes := by
      rw [follows.nodes]
      exact List.mem_map_of_mem (f := fun key : Key => (⟨key.1, key.2, h.traits key⟩ : Node)) known
    exact node?_of_mem follows.tidy member
  · next unknown =>
    rw [Graph.node?, List.find?_eq_none]
    intro n member found
    simp only [decide_eq_true_eq] at found
    obtain ⟨rfl, rfl⟩ := found
    rw [← follows.keys] at unknown
    exact unknown (List.mem_map_of_mem (f := Node.key) member)

theorem Follows.concreteTypeNames (follows : g.Follows h ids) (subgraph typeName : String) :
    g.concreteTypeNames subgraph typeName =
      (h.connected.toList.filter fun link => link.1 = (subgraph, typeName)).map fun link => link.2.2 := by
  rw [concreteTypeNames_eq, follows.id?]
  split
  · next known =>
    -- Types are told apart by their places, so both filters keep the same links.
    have kept : (h.connected.toList.filter fun link => h.place link.1 = h.place (subgraph, typeName)) =
        h.connected.toList.filter fun link => link.1 = (subgraph, typeName) := by
      apply List.filter_congr
      intro link member
      exact decide_eq_decide.mpr (History.place_inj (follows.written link member).1)
    have found : ∀ link ∈ h.connected.toList, (h.keys.toList[h.place link.2]?).map Prod.snd = some link.2.2 := by
      intro link member
      rw [History.place, List.getElem?_idxOf (follows.written link member).2, Option.map_some]
    rw [Option.map_some, Option.getD_some, targets, follows.connections, follows.keys, List.filter_map,
      List.filterMap_map, ← List.filterMap_eq_map, ← kept]
    apply List.filterMap_congr
    intro link member
    exact found link (List.mem_of_mem_filter member)
  · next unknown =>
    have nothing : (h.connected.toList.filter fun link => link.1 = (subgraph, typeName)) = [] := by
      rw [List.filter_eq_nil_iff]
      intro link member same
      exact unknown (decide_eq_true_eq.mp same ▸ (follows.written link member).1)
    rw [nothing]
    rfl

end Graph

namespace Script

variable {σ : Type} [Store σ]

/-- What a store has handed out for types when the calls are made, once for each call. -/
def ids : {n : Nat} → Script n → Vector Nat n → σ → List Nat
  | _, done, handed, _ => handed.toList
  | _, subgraph name rest, handed, s => rest.ids handed (Store.setSubgraph name s)
  | _, type typeName traits rest, handed, s =>
    let (id, s) := Store.addType typeName traits s
    rest.ids (handed.push id) s
  | _, edge source target name isAbstract rest, handed, s =>
    rest.ids handed (Store.addEdge handed[source] handed[target] name isAbstract s)

/-- Calls made on a graph and told as a history, one for one, keep the two together. -/
theorem follows_run {n : Nat} (script : Script n) {g : Graph} {h : History} (handed numbers : Vector Nat n)
    (numbered : numbers.toList = List.range n) (before : g.Follows h handed.toList) :
    (script.run handed g).Follows (script.run numbers h) (script.ids handed g) := by
  induction script generalizing g h with
  | done => exact before
  | subgraph name rest ih => exact ih handed numbers numbered (before.setSubgraph name)
  | @type n typeName traits rest ih =>
    have counted : h.types.length = n := by
      have lengths := congrArg List.length before.ids
      simpa only [List.length_map, Vector.length_toList] using lengths.symm
    apply ih (handed.push (g.addType typeName traits).1) (numbers.push h.types.length)
    · -- The type that was written last has the number of those before it.
      rw [Vector.toList_push, numbered, counted, List.range_succ]
    · rw [Vector.toList_push]
      exact before.addType typeName traits
  | @edge n source target name isAbstract rest ih =>
    have listed (ids : Vector Nat n) (i : Fin n) : ids.toList[(i : Nat)]? = some ids[i] := by
      simp only [Vector.length_toList, Fin.is_lt, getElem?_pos, Vector.getElem_toList, Fin.getElem_fin]
    have number (i : Fin n) : numbers[i] = i := by
      have own := listed numbers i
      rw [numbered, List.getElem?_range i.isLt] at own
      exact (Option.some.inj own).symm
    apply ih handed numbers numbered
    rw [number, number]
    exact before.addEdge (listed handed source) (listed handed target) name isAbstract

end Script

/-- What a graph holds and hands out, told by the history of the calls made on it. -/
structure Graph.Records (g : Graph) (ids : List Nat) (h : History) : Prop where
  /-- One node for each type of a subgraph that was ever written, with all that was ever said of it. -/
  nodes : g.nodes = h.keys.toList.map fun key => ⟨key.1, key.2, h.traits key⟩
  /-- Whenever a type is written, the place of its node is handed out. -/
  ids : ids = h.types.map fun written => h.place written.1
  id? : ∀ subgraph typeName, g.id? subgraph typeName =
    if (subgraph, typeName) ∈ h.keys.toList then some (h.place (subgraph, typeName)) else none
  node? : ∀ subgraph typeName, g.node? subgraph typeName =
    if (subgraph, typeName) ∈ h.keys.toList then some ⟨subgraph, typeName, h.traits (subgraph, typeName)⟩ else none
  /-- One edge for each two types that were ever connected. -/
  connections : g.connections = h.connected.toList.map fun link => (h.place link.1, h.place link.2)
  /-- Each type that an edge leads to, in the order in which the edges were first written. -/
  concreteTypeNames : ∀ subgraph typeName, g.concreteTypeNames subgraph typeName =
    (h.connected.toList.filter fun link => link.1 = (subgraph, typeName)).map fun link => link.2.2

/-- Whatever calls are made on a new graph, with identifiers that it handed out, it holds what they tell. -/
theorem Graph.records_calls (script : Script 0) :
    (script.on Graph.empty).Records (script.ids #v[] Graph.empty) (script.on History.empty) := by
  have follows : (script.on Graph.empty).Follows (script.on History.empty) (script.ids #v[] Graph.empty) :=
    script.follows_run #v[] #v[] rfl follows_empty
  exact ⟨follows.nodes, follows.ids, follows.id?, follows.node?, follows.connections, follows.concreteTypeNames⟩

/-- A type of another subgraph with the same name, the type itself, and an edge that is written twice. -/
example : ((Script.subgraph "s" <| .type "A" .abstract <| .type "B" .plain <| .subgraph "t" <| .type "A" .leaf <|
    .edge 0 2 "A" true <| .edge 0 1 "B" true <| .edge 0 0 "A" true <| .edge 0 2 "A" true .done).on
      Graph.empty).concreteTypeNames "s" "A" = ["A", "B", "A"] := by
  decide

end Federation.Membership
