import Federation.Membership.Graph

/-!
Recordings: stores that keep the writes made to them, to be made again on another store. The
identifiers that a recording hands out count the types written to it.
-/

namespace Federation.Membership

inductive Write
  | subgraph (name : String)
  | type (typeName : String) (traits : Traits)
  | edge (source target : Nat) (name : String) (isAbstract : Bool)
  deriving DecidableEq

/-- The writes made so far, in order. -/
structure Recording where
  writes : List Write
  deriving DecidableEq

namespace Recording

def empty : Recording := ⟨[]⟩

def isEmpty (r : Recording) : Bool := r.writes.isEmpty

def typeCount (r : Recording) : Nat :=
  r.writes.countP fun
    | .type _ _ => true
    | _ => false

def push (r : Recording) (w : Write) : Recording := ⟨r.writes ++ [w]⟩

instance : Store Recording where
  setSubgraph name r := r.push (.subgraph name)
  addType typeName traits r := (r.typeCount, r.push (.type typeName traits))
  addEdge source target name isAbstract r := r.push (.edge source target name isAbstract)

/-- A store in the course of a replay, with the identifiers that it handed out so far. -/
structure Replay (σ : Type) where
  store : σ
  ids : List Nat

namespace Replay

variable {σ : Type} [Store σ]

/-- Makes one write again. An edge that names a type not written before it is skipped. -/
def step (r : Replay σ) : Write → Replay σ
  | .subgraph name => { r with store := Store.setSubgraph name r.store }
  | .type typeName traits =>
    let (id, store) := Store.addType typeName traits r.store
    ⟨store, r.ids ++ [id]⟩
  | .edge source target name isAbstract =>
    match r.ids[source]?, r.ids[target]? with
    | some source, some target =>
      { r with store := Store.addEdge source target name isAbstract r.store }
    | _, _ => r

end Replay

/-- Makes all writes again, in order, on another store. -/
def replay {σ : Type} [Store σ] (r : Recording) (s : σ) : σ :=
  (r.writes.foldl Replay.step ⟨s, []⟩).store

end Recording

end Federation.Membership
