import Federation.Proofs.Batch.Merging
import Federation.Proofs.Membership.Replay

/-!
# A batch as a sequence of normalizations

A batch normalizes its subgraphs apart from each other, each into a recording of its own, and puts the recordings
together afterwards. That comes to the same as normalizing the subgraphs one after the other, each of them directly
against the graph that the ones before it left.
-/

namespace Federation

open Federation.Membership

namespace Merger

/-- The graph is written by recordings alone. -/
theorem graph_mergeResult (limit : Nat) (names : NameSet) (reported : String) (given : Subgraph) (n : NormalSubgraph)
    (m : Merger) : (m.mergeResult limit names reported given n).graph = m.graph := by
  have records (m : Merger) := (congrArg Merger.graph (besideRecords_mergeRecords limit n.authorization.toList m) :)
  have overrides (m : Merger) := (congrArg Merger.graph (besideOverrides_mergeOverrides names reported n m) :)
  unfold mergeResult
  dsimp only
  rw [mergeConcretes_eq, mergeEntities_eq]
  cases given.name <;> exact (overrides _).trans (records m)

theorem graph_merge (limit : Nat) (names : NameSet) (index : Nat) (given : Subgraph) (outcome : Outcome)
    (recording : Recording) (m : Merger) :
    (m.merge limit names index given outcome recording).graph = recording.replay m.graph := by
  unfold merge
  dsimp only
  cases outcome.result? with
  | none => rfl
  | some n => exact graph_mergeResult ..

end Merger

namespace Batch

/-- The options that the subgraphs of a batch are normalized with. -/
def optionsFor (options : BatchOptions) (s : Subgraph) : NormalizationOptions := ⟨s.name, options.maxOrScopes, false⟩

/-- Normalizes subgraphs one after the other, each of them directly against the graph that is there by then. -/
def normalizeInTurn (options : BatchOptions) : List Subgraph → Graph → List Outcome × Graph
  | [], graph => ([], graph)
  | s :: rest, graph =>
    let (outcome, graph) := normalizeInto (optionsFor options s) s.statements graph
    let (outcomes, graph) := normalizeInTurn options rest graph
    (outcome :: outcomes, graph)

/-- Adds a subgraph to a batch as soon as it is normalized against the graph of the batch, so that there is nothing left
to replay. -/
def addInTurn (options : BatchOptions) (names : NameSet) (m : Merger) (x : Subgraph × Nat) : Merger :=
  let (outcome, graph) := normalizeInto (optionsFor options x.1) x.1.statements m.graph
  ({ m with graph } : Merger).merge options.maxOrScopes names x.2 x.1 outcome .empty

def mergeInTurn (options : BatchOptions) (subgraphs : List Subgraph) : Merger :=
  subgraphs.zipIdx.foldl (addInTurn options (OrderedSet.ofList (givenNames subgraphs))) .empty

variable {options : BatchOptions}

/-- It makes no difference to a batch whether a subgraph is recorded first or writes to the graph directly. -/
theorem step_eq_addInTurn (names : NameSet) (m : Merger) (s : Subgraph) (index : Nat) :
    step options names m
        ((s, normalizeInto (optionsFor options s) s.statements Recording.empty), index) =
      addInTurn options names m (s, index) := by
  have replayed := Recording.replay_writeAll (optionsFor options s).subgraph
    (normalize (optionsFor options s) s.statements).facts m.graph
  simp only [step, addInTurn, normalizeInto, Merger.merge, replayed]
  rfl

theorem mergeAll_eq_mergeInTurn (subgraphs : List Subgraph) :
    mergeAll options subgraphs = mergeInTurn options subgraphs := by
  have fold : ∀ (names : NameSet) (rest : List Subgraph) (index : Nat) (m : Merger),
      ((normalizeEach options rest).zipIdx index).foldl (step options names) m =
        (rest.zipIdx index).foldl (addInTurn options names) m := by
    intro names rest
    induction rest with
    | nil => exact fun _ _ => rfl
    | cons s rest ih =>
      intro index m
      have parts : (normalizeEach options (s :: rest)).zipIdx index =
          ((s, normalizeInto (optionsFor options s) s.statements Recording.empty), index) ::
            (normalizeEach options rest).zipIdx (index + 1) := rfl
      rw [parts, List.zipIdx_cons, List.foldl_cons, List.foldl_cons, step_eq_addInTurn, ih]
  exact fold _ subgraphs 0 .empty

theorem graph_addInTurn (names : NameSet) (m : Merger) (s : Subgraph) (index : Nat) :
    (addInTurn options names m (s, index)).graph =
      (normalizeInto (optionsFor options s) s.statements m.graph).2 :=
  Merger.graph_merge ..

theorem graph_mergeInTurn (subgraphs : List Subgraph) :
    (mergeInTurn options subgraphs).graph = (normalizeInTurn options subgraphs .empty).2 := by
  have fold : ∀ (names : NameSet) (rest : List Subgraph) (index : Nat) (m : Merger),
      ((rest.zipIdx index).foldl (addInTurn options names) m).graph = (normalizeInTurn options rest m.graph).2 := by
    intro names rest
    induction rest with
    | nil => exact fun _ _ => rfl
    | cons s rest ih =>
      intro index m
      rw [List.zipIdx_cons, List.foldl_cons, ih, graph_addInTurn]
      rfl
  exact fold _ subgraphs 0 .empty

/-- What a subgraph comes to does not depend on the graph that it is normalized against. -/
theorem outcomes_normalizeInTurn (subgraphs : List Subgraph) (graph : Graph) :
    (normalizeInTurn options subgraphs graph).1 = (normalizeEach options subgraphs).map fun e => e.2.1 := by
  induction subgraphs generalizing graph with
  | nil => rfl
  | cons s rest ih => exact congrArg (normalize (optionsFor options s) s.statements :: ·) (ih _)

end Batch

open Batch in
/-- A batch refines the normalization of its subgraphs in turn: it leaves the same graph, it works with the same
outcomes, and everything else that it gathers is what would be gathered by adding each subgraph right after its direct
normalization. -/
theorem normalizeBatch_inTurn (options : BatchOptions) (subgraphs : List Subgraph) :
    (normalizeBatch options subgraphs).graph = (normalizeInTurn options subgraphs .empty).2 ∧
      (normalizeEach options subgraphs).map (fun e => e.2.1) = (normalizeInTurn options subgraphs .empty).1 ∧
        mergeAll options subgraphs = mergeInTurn options subgraphs := by
  refine ⟨?_, (outcomes_normalizeInTurn subgraphs .empty).symm, mergeAll_eq_mergeInTurn subgraphs⟩
  calc (normalizeBatch options subgraphs).graph = (mergeAll options subgraphs).graph := rfl
    _ = (mergeInTurn options subgraphs).graph := by rw [mergeAll_eq_mergeInTurn]
    _ = (normalizeInTurn options subgraphs .empty).2 := graph_mergeInTurn subgraphs

end Federation
