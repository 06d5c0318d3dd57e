import Federation.Membership.Recording
import Federation.OrderedSet

/-!
Sessions: one graph under a series of commands, of which a part may go to a recording first. A session
numbers the identifiers that its graph hands out in the order in which it first sees them, and those
of its recordings apart from them; what a replay writes is not seen.
-/

namespace Federation.Membership

inductive Command
  | write (w : Write)
  | record
  /-- Writes the recording to the graph and ends it. -/
  | replay
  | isRecordingEmpty
  | node (subgraph typeName : String)
  | concreteTypeNames (subgraph typeName : String)
  | counts

inductive Reply
  | done
  | id (n : Nat)
  | unknownId
  | notRecording
  | isEmpty (b : Option Bool)
  | node (n : Option Node)
  | names (ns : List String)
  | counts (nodes edges : Nat)

/-- Makes one write with the numbers that a session knows, and answers with such a number. An edge with
a number that is not known is not written. -/
def Write.perform {σ : Type} [Store σ] (known : OrderedSet Nat) (s : σ) :
    Write → σ × OrderedSet Nat × Reply
  | .subgraph name => (Store.setSubgraph name s, known, .done)
  | .type typeName traits =>
    let (id, s) := Store.addType typeName traits s
    let known := known.insert id
    (s, known, .id (known.toList.idxOf id))
  | .edge source target name isAbstract =>
    match known.toList[source]?, known.toList[target]? with
    | some source, some target => (Store.addEdge source target name isAbstract s, known, .done)
    | _, _ => (s, known, .unknownId)

structure Session where
  graph : Graph
  recording : Option Recording
  /-- Identifiers of the graph, each at the place of its number. -/
  graphIds : OrderedSet Nat
  /-- Identifiers of all recordings, each at the place of its number. -/
  recordingIds : OrderedSet Nat

namespace Session

def start : Session := ⟨.empty, none, .empty, .empty⟩

def step (s : Session) : Command → Session × Reply
  | .write w =>
    match s.recording with
    | none =>
      let (graph, graphIds, reply) := w.perform s.graphIds s.graph
      ({ s with graph, graphIds }, reply)
    | some r =>
      let (r, recordingIds, reply) := w.perform s.recordingIds r
      ({ s with recording := some r, recordingIds }, reply)
  | .record => ({ s with recording := some .empty }, .done)
  | .replay =>
    match s.recording with
    | none => (s, .notRecording)
    | some r =>
      let graph := r.replay s.graph
      ({ s with graph, recording := none }, .counts graph.nodes.length graph.edges.length)
  | .isRecordingEmpty => (s, .isEmpty (s.recording.map Recording.isEmpty))
  | .node subgraph typeName => (s, .node (s.graph.node? subgraph typeName))
  | .concreteTypeNames subgraph typeName =>
    (s, .names (s.graph.concreteTypeNames subgraph typeName))
  | .counts => (s, .counts s.graph.nodes.length s.graph.edges.length)

end Session

end Federation.Membership
