import Federation.Authorization.Requirement
import Mathlib.Algebra.BigOperators.Group.List.Basic

/-!
Who meets a requirement. Joining requirements within the limit is conjunction, and the number of
alternatives that comes out is the product of the numbers that go in.
-/

namespace Federation.Authorization

open Schema

/-- What a client can show: whether it is authenticated, and the scopes that it holds. -/
structure Credential where
  authenticated : Bool
  holds : String → Bool

namespace Credential

def Covers (who : Credential) (alternative : NameSet) : Prop :=
  ∀ scope ∈ alternative.toList, who.holds scope = true

instance (who : Credential) (alternative : NameSet) : Decidable (who.Covers alternative) :=
  inferInstanceAs (Decidable (∀ scope ∈ alternative.toList, who.holds scope = true))

/-- Without alternatives nothing is asked; else one of them has to be covered in full. -/
def CoversSome (who : Credential) (alternatives : List NameSet) : Prop :=
  alternatives = [] ∨ ∃ alternative ∈ alternatives, who.Covers alternative

instance (who : Credential) (alternatives : List NameSet) : Decidable (who.CoversSome alternatives) :=
  inferInstanceAs (Decidable (_ ∨ _))

def Satisfies (who : Credential) (r : Requirement) : Prop :=
  (r.authenticated = true → who.authenticated = true) ∧ who.CoversSome r.scopes

instance (who : Credential) (r : Requirement) : Decidable (who.Satisfies r) :=
  inferInstanceAs (Decidable (_ ∧ _))

/-- The credential, authenticated, with the scopes of a set beside its own. -/
def withScopes (who : Credential) (extra : NameSet) : Credential where
  authenticated := true
  holds scope := extra.contains scope || who.holds scope

theorem satisfies_none (who : Credential) : who.Satisfies .none :=
  ⟨fun h => Bool.noConfusion h, Or.inl rfl⟩

theorem satisfies_scope (who : Credential) (authenticated : Bool) (scope : String) :
    who.Satisfies ⟨authenticated, [OrderedSet.ofList [scope]]⟩ ↔
      (authenticated = true → who.authenticated = true) ∧ who.holds scope = true := by
  simp [Satisfies, CoversSome, Covers, OrderedSet.mem_ofList]

theorem covers_union (who : Credential) (s t : NameSet) :
    who.Covers (s.union t) ↔ who.Covers s ∧ who.Covers t := by
  simp only [Covers, OrderedSet.mem_union]
  constructor
  · intro both
    exact ⟨fun scope h => both scope (Or.inl h), fun scope h => both scope (Or.inr h)⟩
  · rintro ⟨left, right⟩ scope (h | h)
    · exact left scope h
    · exact right scope h

theorem covers_withScopes (who : Credential) (extra : NameSet) : (who.withScopes extra).Covers extra := by
  intro scope member
  simp [withScopes, OrderedSet.contains_iff.mpr member]

theorem covers_mono (who : Credential) (extra alternative : NameSet) (h : who.Covers alternative) :
    (who.withScopes extra).Covers alternative := by
  intro scope member
  simp [withScopes, h scope member]

theorem satisfies_mono (who : Credential) (extra : NameSet) (r : Requirement) (h : who.Satisfies r) :
    (who.withScopes extra).Satisfies r := by
  refine ⟨fun _ => rfl, ?_⟩
  rcases h.2 with nothing | ⟨alternative, member, covered⟩
  · exact Or.inl nothing
  · exact Or.inr ⟨alternative, member, covers_mono who extra alternative covered⟩

end Credential

namespace Requirement

theorem product_ne_nil (target source : List NameSet) (ht : target ≠ []) (hs : source ≠ []) :
    product target source ≠ [] := by
  obtain ⟨t, target, rfl⟩ := List.exists_cons_of_ne_nil ht
  obtain ⟨s, source, rfl⟩ := List.exists_cons_of_ne_nil hs
  simp [product]

theorem length_product (target source : List NameSet) :
    (product target source).length = source.length * target.length := by
  induction source with
  | nil => simp [product]
  | cons s source ih =>
    simp only [product, List.flatMap_cons, List.length_append, List.length_map, List.length_cons] at *
    rw [ih, Nat.succ_mul, Nat.add_comm]

theorem coversSome_product (who : Credential) (target source : List NameSet) (ht : target ≠ [])
    (hs : source ≠ []) :
    who.CoversSome (product target source) ↔ who.CoversSome target ∧ who.CoversSome source := by
  simp only [Credential.CoversSome, product_ne_nil target source ht hs, ht, hs, false_or]
  constructor
  -- An alternative of the product is the union of one alternative from each side.
  · rintro ⟨alternative, member, covered⟩
    obtain ⟨s, hsource, inner⟩ := List.mem_flatMap.mp member
    obtain ⟨t, htarget, rfl⟩ := List.mem_map.mp inner
    obtain ⟨left, right⟩ := (who.covers_union t s).mp covered
    exact ⟨⟨t, htarget, left⟩, ⟨s, hsource, right⟩⟩
  · rintro ⟨⟨t, htarget, left⟩, ⟨s, hsource, right⟩⟩
    refine ⟨t.union s, ?_, (who.covers_union t s).mpr ⟨left, right⟩⟩
    exact List.mem_flatMap.mpr ⟨s, hsource, List.mem_map.mpr ⟨t, htarget, rfl⟩⟩

@[simp]
theorem fits_none_right (limit : Nat) (r : Requirement) : fits limit r none = true := by
  simp [fits, none]

@[simp]
theorem conjoin_none_right (limit : Nat) (r : Requirement) : conjoin limit r none = r := by
  simp [conjoin, none]

theorem authenticated_conjoin (limit : Nat) (target source : Requirement) :
    (conjoin limit target source).authenticated = (target.authenticated || source.authenticated) := rfl

/-- What becomes of the scopes where there is room. -/
theorem scopes_conjoin (limit : Nat) (target source : Requirement)
    (room : target.fits limit source = true) :
    (target.scopes = [] ∧ (conjoin limit target source).scopes = source.scopes) ∨
    (source.scopes = [] ∧ (conjoin limit target source).scopes = target.scopes) ∨
    (target.scopes ≠ [] ∧ source.scopes ≠ [] ∧
      source.scopes.length * target.scopes.length ≤ limit ∧
      (conjoin limit target source).scopes = product target.scopes source.scopes) := by
  by_cases hs : source.scopes = []
  · exact Or.inr (Or.inl ⟨hs, by simp [conjoin, hs]⟩)
  · by_cases ht : target.scopes = []
    · exact Or.inl ⟨ht, by simp [conjoin, hs, ht]⟩
    · have bound : source.scopes.length * target.scopes.length ≤ limit := by
        simpa [fits, ht, hs] using room
      exact Or.inr (Or.inr ⟨ht, hs, bound, by simp [conjoin, hs, ht, room]⟩)

/-- Within the limit, joining is conjunction. -/
theorem satisfies_conjoin (who : Credential) (limit : Nat) (target source : Requirement)
    (room : target.fits limit source = true) :
    who.Satisfies (conjoin limit target source) ↔ who.Satisfies target ∧ who.Satisfies source := by
  have scopes : who.CoversSome (conjoin limit target source).scopes ↔
      who.CoversSome target.scopes ∧ who.CoversSome source.scopes := by
    -- Without alternatives nothing is asked, so that the other side decides.
    rcases scopes_conjoin limit target source room with
      ⟨ht, same⟩ | ⟨hs, same⟩ | ⟨ht, hs, -, same⟩
    · rw [same, ht]
      exact ⟨fun h => ⟨Or.inl rfl, h⟩, fun h => h.2⟩
    · rw [same, hs]
      exact ⟨fun h => ⟨h, Or.inl rfl⟩, fun h => h.1⟩
    · rw [same, coversSome_product who _ _ ht hs]
  simp only [Credential.Satisfies, authenticated_conjoin, Bool.or_eq_true, scopes]
  constructor
  · rintro ⟨authenticated, left, right⟩
    exact ⟨⟨fun h => authenticated (Or.inl h), left⟩, ⟨fun h => authenticated (Or.inr h), right⟩⟩
  · rintro ⟨⟨ha, left⟩, ⟨hb, right⟩⟩
    exact ⟨fun h => h.elim ha hb, left, right⟩

/-! ### Joining several requirements -/

/-- Joins requirements to a first one, in order. -/
def joinAll (limit : Nat) (r : Requirement) (rs : List Requirement) : Requirement :=
  rs.foldl (conjoin limit) r

/-- Whether there is room at each of the steps that join requirements to a first one. -/
def FitsAll (limit : Nat) : Requirement → List Requirement → Prop
  | _, [] => True
  | r, s :: rest => r.fits limit s = true ∧ FitsAll limit (r.conjoin limit s) rest

theorem joinAll_append (limit : Nat) (r : Requirement) (rs ss : List Requirement) :
    joinAll limit r (rs ++ ss) = joinAll limit (joinAll limit r rs) ss := List.foldl_append

theorem fitsAll_append (limit : Nat) (r : Requirement) (rs ss : List Requirement) :
    FitsAll limit r (rs ++ ss) ↔ FitsAll limit r rs ∧ FitsAll limit (joinAll limit r rs) ss := by
  induction rs generalizing r with
  | nil => simp [FitsAll, joinAll]
  | cons s rs ih =>
    simp only [List.cons_append, FitsAll, ih, and_assoc]
    rfl

theorem satisfies_joinAll (who : Credential) (limit : Nat) (r : Requirement) (rs : List Requirement)
    (room : FitsAll limit r rs) :
    who.Satisfies (joinAll limit r rs) ↔ who.Satisfies r ∧ ∀ s ∈ rs, who.Satisfies s := by
  induction rs generalizing r with
  | nil => simp [joinAll]
  | cons s rs ih =>
    have step := satisfies_conjoin who limit r s room.1
    have rest := ih (r.conjoin limit s) room.2
    simp only [joinAll, List.foldl_cons, List.mem_cons, forall_eq_or_imp] at *
    rw [rest, step, and_assoc]

theorem length_conjoin_le (limit : Nat) (target source : Requirement)
    (room : target.fits limit source = true) (ht : target.scopes.length ≤ limit)
    (hs : source.scopes.length ≤ limit) : (conjoin limit target source).scopes.length ≤ limit := by
  rcases scopes_conjoin limit target source room with ⟨-, same⟩ | ⟨-, same⟩ | ⟨-, -, bound, same⟩
  · rw [same]; exact hs
  · rw [same]; exact ht
  · rw [same, length_product]; exact bound

/-- Joined within the limit, requirements that keep to the limit make one that keeps to it. -/
theorem length_joinAll_le (limit : Nat) (r : Requirement) (rs : List Requirement)
    (room : FitsAll limit r rs) (hr : r.scopes.length ≤ limit)
    (hrs : ∀ s ∈ rs, s.scopes.length ≤ limit) : (joinAll limit r rs).scopes.length ≤ limit := by
  induction rs generalizing r with
  | nil => exact hr
  | cons s rs ih =>
    have step := length_conjoin_le limit r s room.1 hr (hrs s List.mem_cons_self)
    exact ih (r.conjoin limit s) room.2 step fun u hu => hrs u (List.mem_cons_of_mem s hu)

theorem length_le_conjoin (limit : Nat) (target source : Requirement)
    (room : target.fits limit source = true) :
    target.scopes.length ≤ (conjoin limit target source).scopes.length ∧
      source.scopes.length ≤ (conjoin limit target source).scopes.length := by
  rcases scopes_conjoin limit target source room with ⟨ht, same⟩ | ⟨hs, same⟩ | ⟨ht, hs, -, same⟩
  · simp [same, ht]
  · simp [same, hs]
  · rw [same, length_product]
    have hs' := List.length_pos_of_ne_nil hs
    have ht' := List.length_pos_of_ne_nil ht
    exact ⟨Nat.le_mul_of_pos_left _ hs', Nat.le_mul_of_pos_right _ ht'⟩

/-- What is joined has no fewer alternatives than any of its parts. -/
theorem length_le_joinAll (limit : Nat) (r : Requirement) (rs : List Requirement)
    (room : FitsAll limit r rs) :
    ∀ s ∈ r :: rs, s.scopes.length ≤ (joinAll limit r rs).scopes.length := by
  induction rs generalizing r with
  | nil => simp [joinAll]
  | cons s rs ih =>
    have step := length_le_conjoin limit r s room.1
    have rest := ih (r.conjoin limit s) room.2
    have joined := rest _ List.mem_cons_self
    intro u member
    simp only [List.mem_cons] at member
    rcases member with rfl | rfl | member
    · exact Nat.le_trans step.1 joined
    · exact Nat.le_trans step.2 joined
    · exact rest u (List.mem_cons_of_mem _ member)

/-- In how many ways one alternative can be taken from each requirement that has any. -/
def combinations (rs : List Requirement) : Nat :=
  ((rs.map fun r => r.scopes.length).filter (· ≠ 0)).prod

theorem combinations_cons (r : Requirement) (rs : List Requirement) :
    combinations (r :: rs) = (if r.scopes = [] then 1 else r.scopes.length) * combinations rs := by
  unfold combinations
  split <;> simp_all

theorem combinations_append (rs ss : List Requirement) :
    combinations (rs ++ ss) = combinations rs * combinations ss := by
  simp [combinations]

/-- How many alternatives come out where requirements are joined: each that has alternatives counts once,
and without any there are none. -/
def alternatives (rs : List Requirement) : Nat :=
  if ∃ r ∈ rs, r.scopes ≠ [] then combinations rs else 0

theorem length_joinAll_of_exists (limit : Nat) (r : Requirement) (rs : List Requirement)
    (room : FitsAll limit r rs) (some : ∃ s ∈ r :: rs, s.scopes ≠ []) :
    (joinAll limit r rs).scopes.length = combinations (r :: rs) := by
  -- The first requirement grows with every join, so the induction is for any first requirement.
  induction rs generalizing r with
  | nil =>
    have nonempty : r.scopes ≠ [] := by simpa using some
    simp [joinAll, combinations, nonempty]
  | cons s rs ih =>
    change (joinAll limit (r.conjoin limit s) rs).scopes.length = _
    rw [combinations_cons, combinations_cons]
    rcases scopes_conjoin limit r s room.1 with ⟨hr, same⟩ | ⟨hs, same⟩ | ⟨hr, hs, -, same⟩
    · have some' : ∃ u ∈ r.conjoin limit s :: rs, u.scopes ≠ [] := by simpa [same, hr] using some
      rw [ih _ room.2 some', combinations_cons, same]
      simp [hr]
    · have some' : ∃ u ∈ r.conjoin limit s :: rs, u.scopes ≠ [] := by simpa [same, hs] using some
      rw [ih _ room.2 some', combinations_cons, same]
      simp [hs]
    · have nonempty : (r.conjoin limit s).scopes ≠ [] := same ▸ product_ne_nil _ _ hr hs
      rw [ih _ room.2 ⟨_, List.mem_cons_self, nonempty⟩, combinations_cons, if_neg nonempty,
        if_neg hr, if_neg hs, same, length_product, ← Nat.mul_assoc,
        Nat.mul_comm s.scopes.length]

/-- The number of alternatives is a product: no requirement is joined twice and none is left out. -/
theorem length_joinAll (limit : Nat) (r : Requirement) (rs : List Requirement)
    (room : FitsAll limit r rs) : (joinAll limit r rs).scopes.length = alternatives (r :: rs) := by
  unfold alternatives
  split
  · next some => exact length_joinAll_of_exists limit r rs room some
  · next absent =>
    have none : ∀ s ∈ r :: rs, s.scopes = [] := by
      intro s member
      by_contra nonempty
      exact absent ⟨s, member, nonempty⟩
    -- Joins of requirements without alternatives never make one.
    have nothing : (joinAll limit r rs).scopes = [] := by
      clear room absent
      induction rs generalizing r with
      | nil => exact none r List.mem_cons_self
      | cons s rs ih =>
        have first := none r List.mem_cons_self
        have second := none s (List.mem_cons_of_mem r List.mem_cons_self)
        refine ih (r.conjoin limit s) fun u member => ?_
        rcases List.mem_cons.mp member with rfl | member
        · simp [conjoin, first, second]
        · exact none u (List.mem_cons_of_mem _ (List.mem_cons_of_mem _ member))
    simp [nothing]

/-- Two lists of requirements that come to the same when they are joined. -/
structure Alike (rs ss : List Requirement) : Prop where
  satisfied : ∀ who : Credential, (∀ r ∈ rs, who.Satisfies r) ↔ ∀ s ∈ ss, who.Satisfies s
  combinations : combinations rs = combinations ss
  nonempty : (∃ r ∈ rs, r.scopes ≠ []) ↔ ∃ s ∈ ss, s.scopes ≠ []

namespace Alike

theorem refl (rs : List Requirement) : Alike rs rs := ⟨fun _ => Iff.rfl, rfl, Iff.rfl⟩

theorem append {rs rs' ss ss' : List Requirement} (first : Alike rs ss) (second : Alike rs' ss') :
    Alike (rs ++ rs') (ss ++ ss') where
  satisfied who := by
    simp only [List.forall_mem_append, first.satisfied who, second.satisfied who]
  combinations := by
    rw [combinations_append, combinations_append, first.combinations, second.combinations]
  nonempty := by
    simp only [List.mem_append, or_and_right, exists_or, first.nonempty, second.nonempty]

theorem flatMap {α : Type} (xs : List α) (f g : α → List Requirement)
    (one : ∀ x ∈ xs, Alike (f x) (g x)) : Alike (xs.flatMap f) (xs.flatMap g) := by
  induction xs with
  | nil => exact refl []
  | cons x xs ih =>
    exact (one x List.mem_cons_self).append (ih fun y member => one y (List.mem_cons_of_mem x member))

/-- A requirement that asks nothing makes no difference. -/
theorem nothing : Alike [] [none] := by
  refine ⟨fun who => ?_, by simp [Requirement.combinations, none], by simp [none]⟩
  simp [who.satisfies_none]

/-- Joined or not, two requirements come to the same. -/
theorem conjoin (limit : Nat) (r s : Requirement) (room : r.fits limit s = true) :
    Alike [r.conjoin limit s] [r, s] := by
  have scopes := scopes_conjoin limit r s room
  refine ⟨fun who => by simp [satisfies_conjoin who limit r s room], ?_, ?_⟩
  · simp only [combinations_cons]
    rcases scopes with ⟨hr, same⟩ | ⟨hs, same⟩ | ⟨hr, hs, -, same⟩
    · simp [same, hr]
    · simp [same, hs]
    · simp [same, hr, hs, product_ne_nil, length_product, Nat.mul_comm, Requirement.combinations]
  · rcases scopes with ⟨hr, same⟩ | ⟨hs, same⟩ | ⟨hr, hs, -, same⟩
    · simp [same, hr]
    · simp [same, hs]
    · simp [same, hr, hs, product_ne_nil]

theorem alternatives_eq {rs ss : List Requirement} (h : Alike rs ss) :
    alternatives rs = alternatives ss := by
  unfold alternatives
  simp only [h.nonempty, h.combinations]

end Alike

/-! ### Room for all of several requirements -/

theorem combinations_pos (rs : List Requirement) : 0 < combinations rs := by
  induction rs with
  | nil => exact Nat.one_pos
  | cons r rs ih =>
    rw [combinations_cons]
    split
    · rwa [Nat.one_mul]
    · next some => exact Nat.mul_pos (List.length_pos_of_ne_nil some) ih

/-- The requirements that have alternatives. -/
def choosing (rs : List Requirement) : List Requirement := rs.filter (·.scopes ≠ [])

theorem choosing_cons (r : Requirement) (rs : List Requirement) :
    choosing (r :: rs) = if r.scopes = [] then choosing rs else r :: choosing rs := by
  by_cases nothing : r.scopes = [] <;> simp [choosing, nothing]

theorem length_choosing_perm {rs ss : List Requirement} (perm : rs.Perm ss) :
    (choosing rs).length = (choosing ss).length :=
  (perm.filter _).length_eq

theorem combinations_perm {rs ss : List Requirement} (perm : rs.Perm ss) : combinations rs = combinations ss :=
  ((perm.map _).filter _).prod_eq

theorem combinations_of_choosing {rs : List Requirement} (nobody : choosing rs = []) : combinations rs = 1 := by
  induction rs with
  | nil => rfl
  | cons r rs ih =>
    rw [choosing_cons] at nobody
    split at nobody
    · next nothing => rw [combinations_cons, if_pos nothing, ih nobody]
    · exact absurd nobody (List.cons_ne_nil _ _)

theorem fits_eq_false {limit : Nat} {target source : Requirement} (full : target.fits limit source = false) :
    target.scopes ≠ [] ∧ source.scopes ≠ [] ∧ limit < source.scopes.length * target.scopes.length := by
  simpa [fits, and_assoc] using full

/-- There is room at each step just where at most one requirement has alternatives, or the limit is not exceeded at
the end. -/
theorem fitsAll_iff (limit : Nat) (r : Requirement) (rs : List Requirement) :
    FitsAll limit r rs ↔ (choosing (r :: rs)).length ≤ 1 ∨ combinations (r :: rs) ≤ limit := by
  induction rs generalizing r with
  | nil =>
    refine iff_of_true trivial (Or.inl ?_)
    rw [choosing_cons]
    split <;> simp [choosing]
  | cons s rs ih =>
    by_cases room : r.fits limit s = true
    · have same := ((Alike.conjoin limit r s room).append (Alike.refl rs)).combinations
      simp only [List.cons_append, List.nil_append] at same
      rw [FitsAll, and_iff_right room, ih, same, choosing_cons, choosing_cons r, choosing_cons s]
      rcases scopes_conjoin limit r s room with ⟨hr, joined⟩ | ⟨hs, joined⟩ | ⟨hr, hs, bound, joined⟩
      · rw [joined, if_pos hr]
        split <;> rfl
      · rw [joined, if_pos hs]
        split <;> rfl
      · rw [if_neg (joined ▸ product_ne_nil _ _ hr hs), if_neg hr, if_neg hs]
        refine ⟨fun h => Or.inr ?_, fun h => h.imp (fun few => by simp at few) id⟩
        rcases h with few | within
        -- The rest asks for no choice, and for the two there is room.
        · have nobody : choosing rs = [] := List.eq_nil_of_length_eq_zero (by simpa using few)
          rw [combinations_cons, combinations_cons, if_neg hr, if_neg hs, combinations_of_choosing nobody,
            Nat.mul_one, Nat.mul_comm]
          exact bound
        · exact within
    · obtain ⟨hr, hs, excess⟩ := fits_eq_false (Bool.eq_false_iff.mpr room)
      refine iff_of_false (fun h => room h.1) ?_
      rw [choosing_cons, choosing_cons, if_neg hr, if_neg hs, combinations_cons, combinations_cons, if_neg hr,
        if_neg hs, ← Nat.mul_assoc, Nat.mul_comm r.scopes.length]
      have least := Nat.le_mul_of_pos_right (s.scopes.length * r.scopes.length) (combinations_pos rs)
      simp only [List.length_cons]
      omega

end Requirement

end Federation.Authorization
