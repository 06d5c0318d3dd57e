import Federation.Membership.Recording

/-!
# Recordings and the stores that they stand for

A recording numbers the types that are written to it, and a store has identifiers of its own for them. A script is a
series of calls that leaves open whose identifiers its edges are written with. Made on a recording and replayed, or made
directly, it leaves a store the same. This holds of every store, whatever it does with its writes.
-/

namespace Federation.Membership

/-- Calls on a store after `n` types were written. An edge names two of the types written before it by their numbers. -/
inductive Script : Nat → Type
  | done {n : Nat} : Script n
  | subgraph {n : Nat} (name : String) (rest : Script n) : Script n
  | type {n : Nat} (typeName : String) (traits : Traits) (rest : Script (n + 1)) : Script n
  | edge {n : Nat} (source target : Fin n) (name : String) (isAbstract : Bool) (rest : Script n) : Script n

/-- Makes one write on a store. The numbers in it are taken for identifiers of the store. -/
def Write.make {σ : Type} [Store σ] (s : σ) : Write → σ
  | .subgraph name => Store.setSubgraph name s
  | .type typeName traits => (Store.addType typeName traits s).2
  | .edge source target name isAbstract => Store.addEdge source target name isAbstract s

/-- Writes after `n` types, without the edges that name a type of which no write before them is. -/
def Write.grounded : Nat → List Write → List Write
  | _, [] => []
  | n, .subgraph name :: rest => .subgraph name :: grounded n rest
  | n, .type typeName traits :: rest => .type typeName traits :: grounded (n + 1) rest
  | n, .edge source target name isAbstract :: rest =>
    if source < n ∧ target < n then .edge source target name isAbstract :: grounded n rest else grounded n rest

namespace Script

variable {σ : Type} [Store σ]

/-- Makes the calls on a store. An edge is written with the identifiers that this store handed out for its types. -/
def run : {n : Nat} → Script n → Vector Nat n → σ → σ
  | _, done, _, s => s
  | _, subgraph name rest, ids, s => rest.run ids (Store.setSubgraph name s)
  | _, type typeName traits rest, ids, s =>
    let (id, s) := Store.addType typeName traits s
    rest.run (ids.push id) s
  | _, edge source target name isAbstract rest, ids, s =>
    rest.run ids (Store.addEdge ids[source] ids[target] name isAbstract s)

theorem run_type {n : Nat} (typeName : String) (traits : Traits) (rest : Script (n + 1)) (ids : Vector Nat n) (s : σ) :
    (type typeName traits rest).run ids s =
      rest.run (ids.push (Store.addType typeName traits s).1) (Store.addType typeName traits s).2 := rfl

/-- Makes the calls on a store to which no type was written in their course. -/
def on (script : Script 0) (s : σ) : σ := script.run #v[] s

/-- The calls as writes, the types in edges by their numbers. -/
def writes : {n : Nat} → Script n → List Write
  | _, done => []
  | _, subgraph name rest => .subgraph name :: rest.writes
  | _, type typeName traits rest => .type typeName traits :: rest.writes
  | _, edge source target name isAbstract rest => .edge source target name isAbstract :: rest.writes

/-- The script of the writes that name only types written before. -/
def ofWrites : (n : Nat) → List Write → Script n
  | _, [] => done
  | n, .subgraph name :: rest => subgraph name (ofWrites n rest)
  | n, .type typeName traits :: rest => type typeName traits (ofWrites (n + 1) rest)
  | n, .edge source target name isAbstract :: rest =>
    if known : source < n ∧ target < n then
      edge ⟨source, known.1⟩ ⟨target, known.2⟩ name isAbstract (ofWrites n rest)
    else ofWrites n rest

theorem writes_ofWrites (n : Nat) (given : List Write) : (ofWrites n given).writes = Write.grounded n given := by
  induction given generalizing n with
  | nil => rfl
  | cons w rest ih =>
    cases w with
    | subgraph name => exact congrArg _ (ih n)
    | type typeName traits => exact congrArg _ (ih (n + 1))
    | edge source target name isAbstract =>
      unfold ofWrites Write.grounded
      split
      · exact congrArg _ (ih n)
      · exact ih n

theorem ofWrites_writes {n : Nat} (script : Script n) : ofWrites n script.writes = script := by
  induction script with
  | done => rfl
  | subgraph name rest ih => exact congrArg _ ih
  | type typeName traits rest ih => exact congrArg _ ih
  | edge source target name isAbstract rest ih =>
    rw [writes, ofWrites, dif_pos ⟨source.isLt, target.isLt⟩]
    exact congrArg _ ih

/-- A recording hands out the numbers of types, so that the writes of a script are what it keeps. -/
theorem run_recording {n : Nat} (script : Script n) (r : Recording) (counts : r.typeCount = n) (numbers : Vector Nat n)
    (numbered : ∀ i : Fin n, numbers[i] = i) : script.run numbers r = ⟨r.writes ++ script.writes⟩ := by
  induction script generalizing r with
  | done => exact congrArg Recording.mk (List.append_nil _).symm
  | subgraph name rest ih =>
    have next : (r.push (.subgraph name)).typeCount = _ := (List.countP_append ..).trans counts
    refine (ih (r.push (.subgraph name)) next numbers numbered).trans ?_
    simp [Recording.push, writes]
  | type typeName traits rest ih =>
    have next : (r.push (.type typeName traits)).typeCount = _ :=
      (List.countP_append ..).trans (congrArg (· + 1) counts)
    refine (ih (r.push (.type typeName traits)) next (numbers.push r.typeCount) fun i => ?_).trans ?_
    · -- The type that was written last has the number of those before it.
      rcases Nat.lt_succ_iff_lt_or_eq.mp i.isLt with earlier | last
      · simpa [Vector.getElem_push, earlier] using numbered ⟨i, earlier⟩
      · simp [last, counts]
    · simp [Recording.push, writes]
  | edge source target name isAbstract rest ih =>
    have next : (r.push (.edge source target name isAbstract)).typeCount = _ := (List.countP_append ..).trans counts
    rw [run, numbered, numbered]
    refine (ih (r.push (.edge source target name isAbstract)) next numbers numbered).trans ?_
    simp [Recording.push, writes]

/-- Replaying writes makes the calls of the script that they spell. -/
theorem foldl_step_eq_run (given : List Write) {n : Nat} (ids : Vector Nat n) (s : σ) :
    (given.foldl Recording.Replay.step ⟨s, ids.toList⟩).store = (ofWrites n given).run ids s := by
  -- The identifiers that were given out go along with the writes that are left.
  induction given generalizing n s with
  | nil => rfl
  | cons w rest ih =>
    rw [List.foldl_cons]
    cases w with
    | subgraph name => exact ih ids (Store.setSubgraph name s)
    | type typeName traits =>
      refine Eq.trans ?_ (ih (ids.push (Store.addType typeName traits s).1) (Store.addType typeName traits s).2)
      rw [Vector.toList_push]
      rfl
    | edge source target name isAbstract =>
      unfold ofWrites
      split
      · next known =>
        refine Eq.trans ?_ (ih ids (Store.addEdge ids[source] ids[target] name isAbstract s))
        simp [Recording.Replay.step, known]
      -- An edge between types that were not written is left out by both.
      · next unknown =>
        refine Eq.trans ?_ (ih ids s)
        have missing : ¬ (∃ a b, ids.toList[source]? = some a ∧ ids.toList[target]? = some b) := by
          rintro ⟨a, b, first, second⟩
          have first := (List.getElem?_eq_some_iff.mp first).1
          have second := (List.getElem?_eq_some_iff.mp second).1
          rw [Vector.length_toList] at first second
          exact unknown ⟨first, second⟩
        unfold Recording.Replay.step
        dsimp only
        split
        · next a b first second => exact absurd ⟨a, b, first, second⟩ missing
        · rfl

/-- What is said about membership as calls, after `n` types were written. -/
def ofFacts : (n : Nat) → List Fact → Script n
  | _, [] => done
  | n, .leaf typeName :: rest => type typeName .leaf (ofFacts (n + 1) rest)
  | n, .concrete abstractName concreteName :: rest =>
    type abstractName .abstract <| type concreteName .plain <|
      edge ⟨n, by omega⟩ ⟨n + 1, by omega⟩ concreteName true (ofFacts (n + 2) rest)

theorem run_ofFacts (facts : List Fact) {n : Nat} (ids : Vector Nat n) (s : σ) :
    (ofFacts n facts).run ids s = facts.foldl Store.write s := by
  induction facts generalizing n s with
  | nil => rfl
  | cons fact rest ih =>
    cases fact with
    | leaf typeName => exact ih _ _
    | concrete abstractName concreteName =>
      -- The edge names the two types that were written last.
      rw [ofFacts, run_type, run_type, run, ih]
      simp [Store.write]

end Script

namespace Recording

variable {σ : Type} [Store σ]

/-- The calls of a script may be recorded first and made on a store later. -/
theorem replay_on (script : Script 0) (s : σ) : (script.on empty).replay s = script.on s := by
  have recorded : script.on empty = ⟨script.writes⟩ := script.run_recording empty rfl #v[] nofun
  rw [recorded]
  exact (Script.foldl_step_eq_run script.writes #v[] s).trans (congrArg (Script.on · s) script.ofWrites_writes)

/-- What is said about membership may be recorded first and written to a store later. -/
theorem replay_writeAll (subgraph : String) (facts : List Fact) (s : σ) :
    (Store.writeAll subgraph facts Recording.empty).replay s = Store.writeAll subgraph facts s := by
  have spelled {τ : Type} [Store τ] (t : τ) :
      (Script.subgraph subgraph (Script.ofFacts 0 facts)).on t = Store.writeAll subgraph facts t :=
    Script.run_ofFacts facts #v[] (Store.setSubgraph subgraph t)
  rw [← spelled, ← spelled]
  exact replay_on _ s

theorem foldl_make (given : List Write) (r : Recording) : given.foldl Write.make r = ⟨r.writes ++ given⟩ := by
  induction given generalizing r with
  | nil => exact congrArg mk (List.append_nil _).symm
  | cons w rest ih =>
    have pushed : w.make r = r.push w := by cases w <;> rfl
    rw [List.foldl_cons, ih, pushed]
    simp [push]

/-- Replaying a recording of calls leaves a store as the same calls leave it that are made directly, whatever
identifiers the store hands out and whatever was written to it before. Of other writes just the edges are skipped that
name a type which no write before them is. -/
theorem replay_makes_calls (s : σ) :
    (∀ script : Script 0, (script.on empty).replay s = script.on s) ∧
      ∀ given : List Write, ∃ script : Script 0, script.writes = Write.grounded 0 given ∧
        (given.foldl Write.make empty).replay s = script.on s := by
  refine ⟨fun script => replay_on script s, fun given => ?_⟩
  refine ⟨.ofWrites 0 given, Script.writes_ofWrites 0 given, ?_⟩
  rw [foldl_make]
  exact Script.foldl_step_eq_run given #v[] s

/-- A graph that has a type already hands out another identifier for it than the recording did. -/
example :
    let script : Script 0 := .type "B" .plain <| .type "A" .abstract <| .edge 1 0 "B" true .done
    (script.on empty).replay (⟨[⟨"s", "A", .plain⟩], [], "s"⟩ : Graph) =
      ⟨[⟨"s", "A", .abstract⟩, ⟨"s", "B", .plain⟩], [⟨0, 1, "B", true⟩], "s"⟩ := by
  decide

end Recording

end Federation.Membership
