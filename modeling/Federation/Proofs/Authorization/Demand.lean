import Federation.Proofs.Authorization.Credential
import Mathlib.Data.Finset.Basic
import Mathlib.Data.Multiset.Bind

/-!
# Requirements without order

What a requirement demands is the same in whatever order its alternatives and their scopes are listed. Joining demands
within a limit does not depend on the order in which they are joined, and neither does whether there is room.
-/

namespace Federation.Authorization

/-- A requirement up to the order of its alternatives and of the scopes in them. -/
@[ext]
structure Demand where
  authenticated : Bool
  choices : Multiset (Finset String)

namespace Demand

def none : Demand := ⟨false, 0⟩

def accumulate (d e : Demand) : Demand := ⟨d.authenticated || e.authenticated, d.choices + e.choices⟩

/-- Each choice of the one with each of the other. -/
def mix (x y : Multiset (Finset String)) : Multiset (Finset String) := y.bind fun s => x.map fun t => t ∪ s

/-- The choices where both are demanded. Without choices nothing is asked. -/
def both (x y : Multiset (Finset String)) : Multiset (Finset String) :=
  if y = 0 then x else if x = 0 then y else mix x y

/-- Both demands together, where they have few enough choices. -/
def join? (limit : Nat) (d e : Demand) : Option Demand :=
  if d.choices = 0 ∨ e.choices = 0 ∨ e.choices.card * d.choices.card ≤ limit then
    some ⟨d.authenticated || e.authenticated, both d.choices e.choices⟩
  else Option.none

theorem accumulate_right_comm (d e f : Demand) : (d.accumulate e).accumulate f = (d.accumulate f).accumulate e := by
  simp only [accumulate, Bool.or_right_comm, add_right_comm]

/-! ## Choices -/

variable (x y z : Multiset (Finset String))

theorem card_mix : (mix x y).card = y.card * x.card := by
  simp [mix, Multiset.card_bind]

theorem mix_comm : mix x y = mix y x := by
  unfold mix
  rw [Multiset.bind_map_comm]
  simp only [Finset.union_comm]

theorem mix_right_comm : mix (mix x y) z = mix (mix x z) y := by
  simp only [mix, Multiset.map_bind, Multiset.map_map, Function.comp_def]
  rw [Multiset.bind_bind]
  simp only [Finset.union_right_comm]

variable {x y}

theorem mix_ne_zero (hx : x ≠ 0) (hy : y ≠ 0) : mix x y ≠ 0 := by
  rw [← Multiset.card_pos] at hx hy ⊢
  rw [card_mix]
  exact Nat.mul_pos hy hx

/-! ## Joining -/

variable (limit : Nat)

/-- Of two demands that are joined to a third, either may come first. -/
theorem join?_right_comm (d e f : Demand) :
    (join? limit d e).bind (join? limit · f) = (join? limit d f).bind (join? limit · e) := by
  obtain ⟨a, x⟩ := d
  obtain ⟨b, y⟩ := e
  obtain ⟨c, z⟩ := f
  have or_comm : (a || b || c) = (a || c || b) := Bool.or_right_comm a b c
  -- Without choices on one side there is always room; else the numbers of choices multiply.
  by_cases hx : x = 0
  · subst hx
    by_cases hy : y = 0 <;> by_cases hz : z = 0 <;>
      simp [join?, both, hy, hz, or_comm, mix_comm y z, Nat.mul_comm y.card]
  · by_cases hy : y = 0
    · subst hy
      by_cases hz : z = 0 <;> by_cases room : z.card * x.card ≤ limit <;>
        simp [join?, both, hx, hz, or_comm, room]
    · by_cases hz : z = 0
      · subst hz
        by_cases room : y.card * x.card ≤ limit <;> simp [join?, both, hx, hy, or_comm, room]
      · have positive := Multiset.card_pos.mpr hy
        have positive' := Multiset.card_pos.mpr hz
        have swap : z.card * (y.card * x.card) = y.card * (z.card * x.card) := Nat.mul_left_comm ..
        have first : y.card * (z.card * x.card) ≤ limit → z.card * x.card ≤ limit :=
          (Nat.le_mul_of_pos_left _ positive).trans
        have second : z.card * (y.card * x.card) ≤ limit → y.card * x.card ≤ limit :=
          (Nat.le_mul_of_pos_left _ positive').trans
        rw [swap] at second
        by_cases room : y.card * (z.card * x.card) ≤ limit
        · simp [join?, both, hx, hy, hz, mix_ne_zero, card_mix, or_comm, first room, second room, room, swap,
            mix_right_comm x y z]
        · by_cases room' : y.card * x.card ≤ limit <;> by_cases room'' : z.card * x.card ≤ limit <;>
            simp [join?, both, hx, hy, hz, mix_ne_zero, card_mix, room, room', room'', swap]

end Demand

namespace Requirement

/-- What a requirement demands. -/
def demand (r : Requirement) : Demand := ⟨r.authenticated, ↑(r.scopes.map fun s => s.toList.toFinset)⟩

/-- Two requirements with the same alternatives, as a multiset of sets. -/
def SameUpToOrder (r s : Requirement) : Prop := r.demand = s.demand

instance (r s : Requirement) : Decidable (r.SameUpToOrder s) :=
  decidable_of_iff (r.authenticated = s.authenticated ∧ r.demand.choices = s.demand.choices)
    ⟨fun ⟨authenticated, choices⟩ => Demand.ext authenticated choices,
      fun same => ⟨congrArg Demand.authenticated same, congrArg Demand.choices same⟩⟩

@[simp]
theorem demand_none : demand none = .none := rfl

theorem demand_accumulate (r s : Requirement) : (r.accumulate s).demand = r.demand.accumulate s.demand := by
  simp [demand, accumulate, Demand.accumulate]

theorem toFinset_union (s t : NameSet) : (s.union t).toList.toFinset = s.toList.toFinset ∪ t.toList.toFinset := by
  ext scope
  simp

theorem choices_product (target source : List NameSet) :
    (↑((product target source).map fun s => s.toList.toFinset) : Multiset (Finset String)) =
      Demand.mix ↑(target.map fun s => s.toList.toFinset) ↑(source.map fun s => s.toList.toFinset) := by
  simp only [product, List.map_flatMap, List.map_map, Function.comp_def, toFinset_union, Demand.mix,
    Multiset.map_coe, Multiset.coe_bind, List.flatMap_map]

/-- Joining a requirement is joining what it demands. -/
theorem join?_demand (limit : Nat) (r s : Requirement) :
    r.demand.join? limit s.demand = if r.fits limit s then some (r.conjoin limit s).demand else Option.none := by
  obtain ⟨a, target⟩ := r
  obtain ⟨b, source⟩ := s
  by_cases ht : target = []
  · subst ht
    cases source <;> simp [demand, Demand.join?, Demand.both, fits, conjoin]
  · by_cases hs : source = []
    · subst hs
      simp [demand, Demand.join?, Demand.both, fits, conjoin]
    · by_cases room : source.length * target.length ≤ limit
      · simp [demand, Demand.join?, Demand.both, fits, conjoin, ht, hs, room, choices_product]
      · simp [demand, Demand.join?, fits, ht, hs, room]

end Requirement

end Federation.Authorization
