import Federation.Proofs.Authorization.Credential

/-!
# Joining as conjunction

Where there is room, joining two requirements is conjunction. To a client it makes no difference then in which order
requirements are joined, how the joins are nested, or whether one is joined twice. Whether there is room at each step of
a series depends on the numbers of alternatives alone, in whatever order they come.
-/

namespace Federation.Authorization

namespace Requirement

/-- Two requirements that the same clients meet. -/
def Equivalent (r s : Requirement) : Prop := ∀ who : Credential, who.Satisfies r ↔ who.Satisfies s

/-! ## One join -/

section Join

variable (limit : Nat) (r s : Requirement)

theorem fits_eq_false_iff : r.fits limit s = false ↔
    r.scopes ≠ [] ∧ s.scopes ≠ [] ∧ limit < r.scopes.length * s.scopes.length := by
  simp [fits, and_assoc, Nat.mul_comm]

theorem fits_comm : r.fits limit s = s.fits limit r := by
  unfold fits
  rw [Bool.or_comm r.scopes.isEmpty, Nat.mul_comm]

variable {limit r s}

/-- A join without room joins authentication only. -/
theorem conjoin_of_full (full : r.fits limit s = false) :
    r.conjoin limit s = ⟨r.authenticated || s.authenticated, r.scopes⟩ := by
  obtain ⟨hr, hs, -⟩ := (fits_eq_false_iff limit r s).mp full
  simp [conjoin, hr, hs, full]

theorem length_conjoin (room : r.fits limit s = true) : (r.conjoin limit s).scopes.length =
    if r.scopes = [] then s.scopes.length
    else if s.scopes = [] then r.scopes.length
    else r.scopes.length * s.scopes.length := by
  rcases scopes_conjoin limit r s room with ⟨hr, same⟩ | ⟨hs, same⟩ | ⟨hr, hs, -, same⟩
  · rw [same, if_pos hr]
  · rw [same, if_pos hs]
    split
    · next hr => rw [hr, hs]
    · rfl
  · rw [same, if_neg hr, if_neg hs, length_product, Nat.mul_comm]

end Join

/-- What joining one requirement to another has to come to. Without room the alternatives stay as they are; otherwise
they multiply, and just those clients meet what is joined that meet both. -/
structure IsConjunction (limit : Nat) (r s joined : Requirement) (room : Bool) : Prop where
  full : room = false ↔ r.scopes ≠ [] ∧ s.scopes ≠ [] ∧ limit < r.scopes.length * s.scopes.length
  kept : room = false → joined = ⟨r.authenticated || s.authenticated, r.scopes⟩
  satisfied : room = true → ∀ who : Credential, who.Satisfies joined ↔ who.Satisfies r ∧ who.Satisfies s
  length : room = true → joined.scopes.length =
    if r.scopes = [] then s.scopes.length
    else if s.scopes = [] then r.scopes.length
    else r.scopes.length * s.scopes.length

theorem isConjunction_conjoin (limit : Nat) (r s : Requirement) :
    IsConjunction limit r s (r.conjoin limit s) (r.fits limit s) where
  full := fits_eq_false_iff limit r s
  kept := conjoin_of_full
  satisfied room who := satisfies_conjoin who limit r s room
  length := length_conjoin

/-! ## Several joins -/

/-- How many alternatives there are to choose from in each requirement that has any. -/
def choices (rs : List Requirement) : List Nat := (rs.map (·.scopes.length)).filter (· ≠ 0)

theorem length_choosing (rs : List Requirement) : (choosing rs).length = (choices rs).length := by
  simp [choosing, choices, List.filter_map, Function.comp_def, List.length_eq_zero_iff]

/-- Room for all of a series is a matter of how many alternatives each requirement has. -/
theorem fitsAll_iff_choices (limit : Nat) (r : Requirement) (rs : List Requirement) :
    FitsAll limit r rs ↔ (choices (r :: rs)).length ≤ 1 ∨ (choices (r :: rs)).prod ≤ limit := by
  rw [fitsAll_iff, length_choosing]
  rfl

theorem fitsAll_congr {limit : Nat} {r s : Requirement} {rs ss : List Requirement}
    (same : ((r :: rs).map (·.scopes.length)).Perm ((s :: ss).map (·.scopes.length))) :
    FitsAll limit r rs ↔ FitsAll limit s ss := by
  have alike : (choices (r :: rs)).Perm (choices (s :: ss)) := same.filter _
  rw [fitsAll_iff_choices, fitsAll_iff_choices, alike.length_eq, alike.prod_eq]

section Nesting

variable (limit : Nat) (r s t : Requirement)

/-- There is room for two requirements one after the other just where there is room for both joined. -/
theorem fitsAll_pair_iff :
    FitsAll limit r [s, t] ↔ s.fits limit t = true ∧ r.fits limit (s.conjoin limit t) = true := by
  have rotated : [r, s, t].Perm [s, t, r] := show ([r] ++ [s, t]).Perm ([s, t] ++ [r]) from List.perm_append_comm
  rw [fitsAll_congr (rotated.map _), fits_comm limit r]
  simp [FitsAll]

variable {limit r s t}

theorem equivalent_conjoin_comm (room : r.fits limit s = true) :
    Equivalent (r.conjoin limit s) (s.conjoin limit r) := by
  intro who
  rw [satisfies_conjoin who limit r s room, satisfies_conjoin who limit s r (fits_comm limit r s ▸ room), and_comm]

theorem equivalent_conjoin_assoc (room : FitsAll limit r [s, t]) :
    Equivalent ((r.conjoin limit s).conjoin limit t) (r.conjoin limit (s.conjoin limit t)) := by
  intro who
  obtain ⟨inner, outer⟩ := (fitsAll_pair_iff limit r s t).mp room
  rw [satisfies_conjoin who limit _ t room.2.1, satisfies_conjoin who limit r s room.1,
    satisfies_conjoin who limit r _ outer, satisfies_conjoin who limit s t inner, and_assoc]

theorem equivalent_conjoin_self (room : r.fits limit r = true) : Equivalent (r.conjoin limit r) r := by
  intro who
  rw [satisfies_conjoin who limit r r room, and_self]

end Nesting

/-- Joining is conjunction with an exact limit. Where there is room it is commutative, associative and idempotent for
every client, and there is room under one order and nesting just where there is under another. Whether there is room
for all of a series depends on the numbers of alternatives, in any order. -/
theorem conjoin_is_conjunction (limit : Nat) (r s t : Requirement) (rs ss : List Requirement) :
    IsConjunction limit r s (r.conjoin limit s) (r.fits limit s) ∧
    (r.fits limit s = s.fits limit r ∧
      (r.fits limit s = true → Equivalent (r.conjoin limit s) (s.conjoin limit r))) ∧
    ((FitsAll limit r [s, t] ↔ s.fits limit t = true ∧ r.fits limit (s.conjoin limit t) = true) ∧
      (FitsAll limit r [s, t] →
        Equivalent ((r.conjoin limit s).conjoin limit t) (r.conjoin limit (s.conjoin limit t)))) ∧
    (r.fits limit r = true → Equivalent (r.conjoin limit r) r) ∧
    ((rs.map (·.scopes.length)).Perm (ss.map (·.scopes.length)) →
      (FitsAll limit none rs ↔ FitsAll limit none ss)) := by
  refine ⟨isConjunction_conjoin limit r s, ⟨fits_comm limit r s, equivalent_conjoin_comm⟩,
    ⟨fitsAll_pair_iff limit r s t, equivalent_conjoin_assoc⟩, equivalent_conjoin_self, fun same => ?_⟩
  -- A series starts from the requirement that asks nothing, on both sides.
  exact fitsAll_congr (same.cons none.scopes.length)

/-- Two scopes of which either will do. -/
def either (first second : String) : Requirement := ⟨false, [.ofList [first], .ofList [second]]⟩

/-- There is room for three such requirements among eight alternatives, and not for two among three. -/
theorem conjoin_is_conjunction_eight :
    let r := either "a" "b"
    let s := either "c" "d"
    let t := either "e" "f"
    Equivalent (r.conjoin 8 s) (s.conjoin 8 r) ∧
    Equivalent ((r.conjoin 8 s).conjoin 8 t) (r.conjoin 8 (s.conjoin 8 t)) ∧
    Equivalent (r.conjoin 8 r) r ∧
    (FitsAll 8 none [r, none, s] ↔ FitsAll 8 none [none, t, r]) ∧
    r.fits 3 s = false ∧ (r.conjoin 3 s).scopes = r.scopes := by
  obtain ⟨-, ⟨-, swapped⟩, ⟨-, nested⟩, repeated, reordered⟩ := conjoin_is_conjunction 8 (either "a" "b")
    (either "c" "d") (either "e" "f") [either "a" "b", none, either "c" "d"] [none, either "e" "f", either "a" "b"]
  obtain ⟨conjunction, -⟩ := conjoin_is_conjunction 3 (either "a" "b") (either "c" "d") none [] []
  have full : (either "a" "b").fits 3 (either "c" "d") = false := by decide
  exact ⟨swapped (by decide), nested ⟨by decide, by decide, trivial⟩, repeated (by decide), reordered (by decide), full,
    congrArg Requirement.scopes (conjunction.kept full)⟩

end Requirement

end Federation.Authorization
