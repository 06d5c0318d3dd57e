import Federation.Proofs.Authorization.Inheritance
import Federation.Proofs.Batch.Merging

/-!
# Requirements of a federation

What is required of a type or a field in a federation joins, in order, what the subgraphs require, and its path
is noted just where there was no room for one of them.
-/

namespace Federation

open Authorization
open Requirement (joinAll FitsAll joinAll_append fitsAll_append)

/-- What has a requirement in a federation: a type or a field, by the canonical name of the type. -/
inductive FederatedHost
  | type (typeName : String)
  | field (typeName name : String)
  deriving DecidableEq

namespace FederatedHost

def path : FederatedHost → String
  | type typeName => typeName
  | field typeName name => coordinates typeName name

def requirement (records : Records) : FederatedHost → Requirement
  | type typeName => records.typeAt typeName
  | field typeName name => records.fieldAt typeName name

end FederatedHost

/-- To each host the given requirements are joined, and of the paths of hosts those are noted for which there was
no room. -/
structure Joins (limit : Nat) (given : FederatedHost → List Requirement) (before after : Records × NameSet) :
    Prop where
  joined : ∀ host : FederatedHost,
    host.requirement after.1 = joinAll limit (host.requirement before.1) (given host)
  noted : ∀ path, path ∈ after.2.toList ↔ path ∈ before.2.toList ∨
    ∃ host : FederatedHost, host.path = path ∧ ¬ FitsAll limit (host.requirement before.1) (given host)

namespace Joins

variable {limit : Nat} {given later : FederatedHost → List Requirement} {a b c : Records × NameSet}

theorem refl (a : Records × NameSet) : Joins limit (fun _ => []) a a :=
  ⟨fun _ => rfl, fun _ => by simp [FitsAll]⟩

theorem trans (first : Joins limit given a b) (second : Joins limit later b c) :
    Joins limit (fun host => given host ++ later host) a c where
  joined host := by rw [joinAll_append, ← first.joined, second.joined]
  noted path := by
    rw [second.noted, first.noted, or_assoc, ← exists_or]
    refine or_congr_right (exists_congr fun host => ?_)
    rw [← and_or_left, first.joined, ← Classical.not_and_iff_not_or_not, fitsAll_append]

/-- A pass joins what its steps join, one after the other. -/
theorem foldl {σ α : Type} (books : σ → Records × NameSet) (step : σ → α → σ)
    (given : α → FederatedHost → List Requirement)
    (one : ∀ s x, Joins limit (given x) (books s) (books (step s x))) (xs : List α) (s : σ) :
    Joins limit (fun host => xs.flatMap (given · host)) (books s) (books (xs.foldl step s)) := by
  induction xs generalizing s with
  | nil => exact refl (books s)
  | cons x xs ih => exact (one s x).trans (ih (step s x))

/-- A requirement that is joined to one host. -/
theorem single {here : FederatedHost} {r : Requirement}
    (changed : here.requirement b.1 = (here.requirement a.1).conjoin limit r)
    (others : ∀ host, host ≠ here → FederatedHost.requirement b.1 host = host.requirement a.1)
    (noted : b.2 = if (here.requirement a.1).fits limit r then a.2 else a.2.insert here.path) :
    Joins limit (fun host => if host = here then [r] else []) a b where
  joined host := by
    split
    · next same => rw [same, changed]; rfl
    · next other => exact others host other
  noted path := by
    have only : (∃ host : FederatedHost, host.path = path ∧
        ¬ FitsAll limit (host.requirement a.1) (if host = here then [r] else [])) ↔
        here.path = path ∧ (here.requirement a.1).fits limit r = false := by
      constructor
      · rintro ⟨host, shown, full⟩
        split at full
        · next same => exact ⟨same ▸ shown, by simpa [FitsAll, same] using full⟩
        · exact absurd trivial full
      · rintro ⟨shown, full⟩
        exact ⟨here, shown, by simp [FitsAll, full]⟩
    rw [noted, only]
    cases (here.requirement a.1).fits limit r with
    | true => simp
    | false => simp [eq_comm]

theorem congr (h : Joins limit given a b) (same : ∀ host, given host = later host) : Joins limit later a b :=
  (funext same : given = later) ▸ h

/-- A requirement that asks nothing makes no difference. -/
theorem padded (h : Joins limit given a b)
    (alike : ∀ host, later host = given host ∨ (given host = [] ∧ later host = [.none])) :
    Joins limit later a b where
  joined host := by
    rw [h.joined]
    rcases alike host with same | ⟨nothing, none⟩
    · rw [same]
    · rw [nothing, none]
      exact (Requirement.conjoin_none_right limit _).symm
  noted path := by
    rw [h.noted]
    refine or_congr_right (exists_congr fun host => and_congr_right fun _ => not_congr ?_)
    rcases alike host with same | ⟨nothing, none⟩
    · rw [same]
    · rw [nothing, none]
      exact (iff_true_intro ⟨Requirement.fits_none_right limit _, trivial⟩).symm

/-- Where no path is noted, there was room for each requirement. -/
theorem receives (h : Joins limit given a b) (host : FederatedHost) :
    Receives limit (FederatedHost.requirement · host) (given host) a b where
  joined := h.joined host
  room within := by
    have none : ∀ path, path ∉ b.2.toList := fun path => within ▸ List.not_mem_nil
    refine ⟨List.eq_nil_iff_forall_not_mem.mpr fun path noted => none path ((h.noted path).mpr (Or.inl noted)), ?_⟩
    by_contra full
    exact none _ ((h.noted host.path).mpr (Or.inr ⟨host, rfl, full⟩))

end Joins

namespace Merger

/-- The records of a federation, and the hosts that are over the limit. -/
def books (m : Merger) : Records × NameSet := (m.authorization, m.overLimit)

variable (limit : Nat) (m : Merger)

theorem joins_mergeField (owner : String) (field : String × Requirement) :
    Joins limit (fun host => if host = .field owner field.1 then [field.2] else []) m.books
      (m.mergeField limit owner field).books := by
  -- A federation joins a requirement to a field as a ledger does.
  let ledger : Ledger := ⟨m.authorization, .empty, [], m.overLimit⟩
  have changed := Ledger.fieldAt_conjoinField limit (coordinates owner field.1) owner field.1 field.2 ledger
  have kept := Ledger.typeAt_conjoinField limit (coordinates owner field.1) owner field.1 field.2 ledger
  refine .single ?_ (fun host other => ?_) rfl
  · exact (changed owner field.1).trans (if_pos ⟨rfl, rfl⟩)
  · cases host with
    | type typeName => exact kept typeName
    | field typeName name => exact (changed typeName name).trans (if_neg fun same => other (by rw [same.1, same.2]))

theorem joins_mergeLevel (incoming : String × Record) :
    Joins limit (fun host => if host = .type incoming.1 then [incoming.2.requirement] else []) m.books
      (mergeLevel limit m incoming).books := by
  refine .single ?_ (fun host other => ?_) rfl
  · change (Records.of (m.authorization.update incoming.1 _) incoming.1).requirement = _
    rw [Records.of_update, if_pos rfl]
    rfl
  · cases host with
    | type typeName =>
      change (Records.of (m.authorization.update incoming.1 _) typeName).requirement = _
      rw [Records.of_update, if_neg fun same => other (by rw [same])]
      rfl
    | field typeName name =>
      exact Ledger.fieldAt_update_of_fields m.authorization incoming.1 _ rfl typeName name

/-- What the record of one type has for a host. -/
def given (incoming : String × Record) : FederatedHost → List Requirement
  | .type typeName => if typeName = incoming.1 then [incoming.2.requirement] else []
  | .field typeName name => if incoming.1 = typeName then (incoming.2.fields.get? name).toList else []

theorem joins_mergeRecord (incoming : String × Record) :
    Joins limit (given incoming) m.books (m.mergeRecord limit incoming).books := by
  rw [mergeRecord_eq]
  refine ((joins_mergeLevel limit m incoming).trans (.foldl books (mergeField limit incoming.1) _
    (fun m field => joins_mergeField limit m incoming.1 field) incoming.2.fields.toList
    (mergeLevel limit m incoming))).congr fun host => ?_
  cases host with
  | type typeName => simp [given]
  | field typeName name =>
    rw [if_neg FederatedHost.noConfusion, List.nil_append]
    simpa [given] using Ledger.flatMap_fields incoming.2.fields incoming.1 typeName name

/-- Beside its requirements a subgraph adds nothing to the records. A host without a requirement has the one that
asks nothing. -/
theorem joins_mergeResult (names : NameSet) (reported : String) (s : Subgraph) (n : NormalSubgraph) :
    Joins limit (fun host => [host.requirement n.authorization]) m.books
      (m.mergeResult limit names reported s n).books := by
  have merged := mergesResult_mergeResult limit names reported s n m
  have books : (m.mergeResult limit names reported s n).books =
      (n.authorization.toList.foldl (mergeRecord limit) m).books :=
    Prod.ext merged.authorization merged.overLimit
  rw [books]
  -- A record that gives nothing to a host changes nothing there.
  refine (Joins.foldl Merger.books (mergeRecord limit) given (joins_mergeRecord limit)
    n.authorization.toList m).padded fun host => ?_
  cases host with
  | type typeName =>
    rw [n.authorization.flatMap_toList typeName (given · (.type typeName)) fun e _ other => if_neg (Ne.symm other)]
    dsimp only [FederatedHost.requirement, Records.typeAt, Records.of, Table.getD]
    cases n.authorization.get? typeName with
    | none => exact Or.inr ⟨rfl, rfl⟩
    | some record => exact Or.inl (by simp [given])
  | field typeName name =>
    rw [n.authorization.flatMap_toList typeName (given · (.field typeName name)) fun e _ other => if_neg other]
    dsimp only [FederatedHost.requirement, Records.fieldAt, Records.of, Record.field, Table.getD]
    cases n.authorization.get? typeName with
    | none => exact Or.inr ⟨rfl, rfl⟩
    | some record => cases found : record.fields.get? name <;> simp [given, found]

end Merger

namespace Batch

/-- Every subgraph adds what it requires of its own. -/
theorem joins_mergeAll (options : BatchOptions) (subgraphs : List Subgraph) :
    Joins options.maxOrScopes (fun host => (normals options subgraphs).map (host.requirement ·.authorization))
      Merger.empty.books (mergeAll options subgraphs).books := by
  rw [← map_members]
  refine mergeAll_induction (fun past m => Joins options.maxOrScopes
    (fun host => (past.map Prod.snd).map fun n : NormalSubgraph => host.requirement n.authorization)
    Merger.empty.books m.books) (.refl _) (fun _ _ _ _ _ h => h) fun past s n m reported _ _ h => ?_
  simpa using h.trans (m.joins_mergeResult options.maxOrScopes _ reported s n)

/-- What the valid subgraphs of a batch require of a host, in order. -/
def requirements (options : BatchOptions) (subgraphs : List Subgraph) (host : FederatedHost) : List Requirement :=
  (normals options subgraphs).map (host.requirement ·.authorization)

variable {options : BatchOptions} {subgraphs : List Subgraph}

theorem requirement_empty (host : FederatedHost) : host.requirement Merger.empty.books.1 = .none := by
  cases host <;> rfl

/-- A host is over the limit where more than one subgraph lists scopes for it, and taken together they have too many
alternatives. -/
theorem mem_overLimit_iff {path : String} :
    path ∈ (mergeAll options subgraphs).overLimit.toList ↔ ∃ host : FederatedHost, host.path = path ∧
      1 < (Requirement.choosing (requirements options subgraphs host)).length ∧
      options.maxOrScopes < Requirement.combinations (requirements options subgraphs host) := by
  refine ((joins_mergeAll options subgraphs).noted path).trans ?_
  have start : path ∉ Merger.empty.books.2.toList := List.not_mem_nil
  rw [or_iff_right start]
  -- A federation starts from the requirement that asks nothing, which does not count.
  have nothing : Requirement.none.scopes = [] := rfl
  refine exists_congr fun host => and_congr_right fun _ => ?_
  rw [requirement_empty, Requirement.fitsAll_iff, Requirement.choosing_cons, Requirement.combinations_cons,
    if_pos nothing, if_pos nothing, Nat.one_mul, not_or, Nat.not_le, Nat.not_le]
  rfl

/-- Where no host is over the limit, a federation requires what all its subgraphs do. -/
theorem satisfies_mergeAll (room : (mergeAll options subgraphs).overLimit.toList = []) (who : Credential)
    (host : FederatedHost) : who.Satisfies (host.requirement (mergeAll options subgraphs).authorization) ↔
      ∀ r ∈ requirements options subgraphs host, who.Satisfies r := by
  have joins := joins_mergeAll options subgraphs
  have fits := ((joins.receives host).room room).2
  have joined := joins.joined host
  rw [requirement_empty] at fits joined
  change host.requirement (mergeAll options subgraphs).authorization = _ at joined
  rw [joined, Requirement.satisfies_joinAll who _ _ _ fits]
  exact and_iff_right who.satisfies_none

end Batch

end Federation
