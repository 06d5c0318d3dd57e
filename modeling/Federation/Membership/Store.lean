/-!
Stores of type membership. A store takes three kinds of writes: which subgraph is written for, a type,
and an edge from one type to another. The identifier that a store hands out for a type is what its
edges are written with.
-/

namespace Federation.Membership

/-- What is said about a type when it is written. -/
structure Traits where
  isAbstract : Bool
  isLeaf : Bool
  deriving DecidableEq

namespace Traits

def abstract : Traits := ⟨true, false⟩

def leaf : Traits := ⟨false, true⟩

def plain : Traits := ⟨false, false⟩

/-- What either of two writes says. -/
def or (a b : Traits) : Traits := ⟨a.isAbstract || b.isAbstract, a.isLeaf || b.isLeaf⟩

end Traits

/-- The writes that every store takes. -/
class Store (σ : Type) where
  /-- Types written from now on belong to this subgraph. -/
  setSubgraph : String → σ → σ
  /-- Writes a type and hands out its identifier. -/
  addType : String → Traits → σ → Nat × σ
  /-- Writes an edge between two identifiers. -/
  addEdge : (source target : Nat) → (name : String) → (isAbstract : Bool) → σ → σ

/-- What one declaration says about membership. -/
inductive Fact
  | leaf (typeName : String)
  | concrete (abstractName concreteName : String)
  deriving DecidableEq

namespace Store

variable {σ : Type} [Store σ]

def write (s : σ) : Fact → σ
  | .leaf typeName => (addType typeName .leaf s).2
  | .concrete abstractName concreteName =>
    let (source, s) := addType abstractName .abstract s
    let (target, s) := addType concreteName .plain s
    addEdge source target concreteName true s

def writeAll (subgraph : String) (facts : List Fact) (s : σ) : σ :=
  facts.foldl write (setSubgraph subgraph s)

end Store

end Federation.Membership
