/-! The three operations and the root types they start from. -/

namespace Federation.Schema

inductive Operation
  | query
  | mutation
  | subscription
  deriving DecidableEq

namespace Operation

/-- All operations in their customary order. -/
def all : List Operation := [query, mutation, subscription]

def text : Operation → String
  | query => "query"
  | mutation => "mutation"
  | subscription => "subscription"

/-- The name of the root type where no schema definition gives another. -/
def defaultTypeName : Operation → String
  | query => "Query"
  | mutation => "Mutation"
  | subscription => "Subscription"

def ofDefaultTypeName? (name : String) : Option Operation :=
  all.find? (·.defaultTypeName = name)

def ofText? (s : String) : Option Operation := all.find? (·.text = s)

end Operation

end Federation.Schema
