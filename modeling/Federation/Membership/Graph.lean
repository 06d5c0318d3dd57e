import Federation.Membership.Store

/-!
The graph of type membership over all subgraphs. There is one node for each subgraph and type name and
at most one edge between two nodes. A node's identifier is its place in the order of arrival.
-/

namespace Federation.Membership

structure Node where
  subgraph : String
  typeName : String
  traits : Traits
  deriving DecidableEq

structure Edge where
  source : Nat
  target : Nat
  name : String
  isAbstract : Bool
  deriving DecidableEq

structure Graph where
  nodes : List Node
  edges : List Edge
  subgraph : String
  deriving DecidableEq

namespace Graph

def empty : Graph := ⟨[], [], ""⟩

def id? (g : Graph) (subgraph typeName : String) : Option Nat :=
  g.nodes.findIdx? fun n => n.subgraph = subgraph ∧ n.typeName = typeName

def node? (g : Graph) (subgraph typeName : String) : Option Node :=
  g.nodes.find? fun n => n.subgraph = subgraph ∧ n.typeName = typeName

/-- Writes a type of the current subgraph. What earlier writes said of it stays true. -/
def addType (typeName : String) (traits : Traits) (g : Graph) : Nat × Graph :=
  match g.id? g.subgraph typeName with
  | some i => (i, { g with nodes := g.nodes.modify i fun n => { n with traits := n.traits.or traits } })
  | none => (g.nodes.length, { g with nodes := g.nodes ++ [⟨g.subgraph, typeName, traits⟩] })

/-- Writes an edge in the place of the one between the same nodes, or else after all others. -/
def addEdge (source target : Nat) (name : String) (isAbstract : Bool) (g : Graph) : Graph :=
  let edge : Edge := ⟨source, target, name, isAbstract⟩
  let connects (e : Edge) : Bool := e.source = source ∧ e.target = target
  if g.edges.any connects then
    { g with edges := g.edges.map fun e => if connects e then edge else e }
  else { g with edges := g.edges ++ [edge] }

instance : Store Graph where
  setSubgraph subgraph g := { g with subgraph }
  addType := addType
  addEdge := addEdge

/-- The types that the edges of a type of a subgraph lead to, in the order of the edges' arrival. -/
def concreteTypeNames (g : Graph) (subgraph typeName : String) : List String :=
  match g.id? subgraph typeName with
  | none => []
  | some i => (g.edges.filter (·.source = i)).filterMap fun e => g.nodes[e.target]?.map Node.typeName

end Graph

end Federation.Membership
