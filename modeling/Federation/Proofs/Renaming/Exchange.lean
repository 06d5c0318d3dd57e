import Mathlib.Data.List.TakeWhile
import Mathlib.Logic.Equiv.Basic
import Federation.Proofs.Renaming.Registry

/-!
# Two names that change places

The name of a type has no dot, and a path has the type that it starts from before its first dot. Where two names
without meaning of their own change places, they do so at the head of every path.
-/

namespace Federation

/-- A path with its part before the first dot replaced. -/
def mapHead (f : List Char → List Char) (path : String) : String :=
  .ofList (f (path.toList.takeWhile (· ≠ '.')) ++ path.toList.dropWhile (· ≠ '.'))

section MapHead

variable (f : List Char → List Char)

theorem takeWhile_append_dot (head rest : List Char) :
    (head ++ '.' :: rest).takeWhile (· ≠ '.') = head.takeWhile (· ≠ '.') := by
  induction head with
  | nil => rfl
  | cons c head ih =>
    rw [List.cons_append, List.takeWhile_cons, List.takeWhile_cons, ih]

theorem dropWhile_append_dot (head rest : List Char) :
    (head ++ '.' :: rest).dropWhile (· ≠ '.') = head.dropWhile (· ≠ '.') ++ '.' :: rest := by
  induction head with
  | nil => rfl
  | cons c head ih =>
    rw [List.cons_append, List.dropWhile_cons, List.dropWhile_cons, ih]
    split <;> rfl

theorem takeWhile_of_plain {name : List Char} (plain : '.' ∉ name) : name.takeWhile (· ≠ '.') = name :=
  List.takeWhile_eq_self_iff.mpr fun _ member => decide_eq_true fun same => plain (same ▸ member)

theorem dropWhile_of_plain {name : List Char} (plain : '.' ∉ name) : name.dropWhile (· ≠ '.') = [] :=
  List.dropWhile_eq_nil_iff.mpr fun _ member => decide_eq_true fun same => plain (same ▸ member)

theorem mapHead_path (head rest : String) : mapHead f (head ++ "." ++ rest) = mapHead f head ++ "." ++ rest := by
  have dotted : (head ++ "." ++ rest).toList = head.toList ++ '.' :: rest.toList := by simp
  unfold mapHead
  rw [dotted, takeWhile_append_dot, dropWhile_append_dot, ← String.toList_inj]
  simp

theorem mapHead_of_plain {name : String} (plain : '.' ∉ name.toList) : mapHead f name = .ofList (f name.toList) := by
  rw [mapHead, takeWhile_of_plain plain, dropWhile_of_plain plain, List.append_nil]

variable {f}

/-- What undoes itself at the head undoes itself on the path. -/
theorem mapHead_involutive (involutive : Function.Involutive f) (plain : ∀ name, '.' ∉ name → '.' ∉ f name) :
    Function.Involutive (mapHead f) := by
  intro path
  have head : '.' ∉ path.toList.takeWhile (· ≠ '.') := fun member =>
    Bool.noConfusion (List.mem_takeWhile_imp member : false = true)
  have renamed := plain _ head
  -- Behind the head a path ends or goes on with a dot, so the new head ends where the old one did.
  have rest : path.toList.dropWhile (· ≠ '.') = [] ∨ ∃ rest, path.toList.dropWhile (· ≠ '.') = '.' :: rest := by
    cases dropped : path.toList.dropWhile (· ≠ '.') with
    | nil => exact Or.inl rfl
    | cons c rest =>
      have first := List.head?_dropWhile_not (· ≠ '.') path.toList
      rw [dropped] at first
      obtain rfl : c = '.' := by simpa using first
      exact Or.inr ⟨rest, rfl⟩
  have whole := path.toList.takeWhile_append_dropWhile (p := (· ≠ '.'))
  unfold mapHead
  rw [String.toList_ofList, ← String.toList_inj, String.toList_ofList]
  conv_rhs => rw [← whole]
  rcases rest with rest | ⟨rest, dropped⟩
  · rw [rest, List.append_nil, takeWhile_of_plain renamed, dropWhile_of_plain renamed, involutive]
  · rw [dropped, takeWhile_append_dot, dropWhile_append_dot, takeWhile_of_plain renamed, dropWhile_of_plain renamed,
      involutive, List.nil_append]

end MapHead

namespace Renaming

variable {a b : String}

/-- The exchange of two names on names without dots. -/
theorem mapHead_swap_of_plain {name : String} (plain : '.' ∉ name.toList) :
    mapHead (Equiv.swap a.toList b.toList) name = if name = a then b else if name = b then a else name := by
  rw [mapHead_of_plain _ plain, Equiv.swap_apply_def]
  simp only [String.toList_inj]
  split
  · exact String.ofList_toList
  split
  · exact String.ofList_toList
  · exact String.ofList_toList

/-- Two names change places. -/
def exchange (a b : String) (plain : ∀ name ∈ [a, b], '.' ∉ name.toList)
    (free : ∀ name ∈ [a, b], name ∉ Vocabulary.keptNames) : Renaming where
  toFun := mapHead (Equiv.swap a.toList b.toList)
  injective := by
    -- Exchanging twice changes nothing, as none of the two names has a dot.
    refine (mapHead_involutive (Equiv.swap_apply_self a.toList b.toList) fun name undotted => ?_).injective
    rw [Equiv.swap_apply_def]
    split
    · exact plain b (by simp)
    split
    · exact plain a (by simp)
    · exact undotted
  keeps := by
    intro name kept
    have undotted : ∀ name ∈ Vocabulary.keptNames, '.' ∉ name.toList := by decide +kernel
    have other : name ∉ [a, b] := fun member => free name member kept
    simp only [List.mem_cons, List.not_mem_nil, or_false, not_or] at other
    rw [mapHead_swap_of_plain (undotted name kept), if_neg other.1, if_neg other.2]
  path := mapHead_path _

theorem exchange_of_plain {plain : ∀ name ∈ [a, b], '.' ∉ name.toList}
    {free : ∀ name ∈ [a, b], name ∉ Vocabulary.keptNames} {name : String} (undotted : '.' ∉ name.toList) :
    exchange a b plain free name = if name = a then b else if name = b then a else name :=
  mapHead_swap_of_plain undotted

end Renaming

end Federation
