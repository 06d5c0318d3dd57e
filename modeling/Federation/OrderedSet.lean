/-! Sets that list their members in order of arrival. A member keeps the place it was first given. -/

namespace Federation

/-- A finite set whose members are listed in the order in which they were first inserted. -/
structure OrderedSet (α : Type) where
  toList : List α
  nodup : toList.Nodup
  deriving DecidableEq

/-- Names of types, fields, subgraphs and the like. -/
abbrev NameSet := OrderedSet String

namespace OrderedSet

variable {α : Type}

@[ext]
theorem ext {s t : OrderedSet α} (same : s.toList = t.toList) : s = t := by
  cases s; cases t; simp_all

def empty : OrderedSet α := ⟨[], List.nodup_nil⟩

instance : EmptyCollection (OrderedSet α) := ⟨empty⟩

instance : Inhabited (OrderedSet α) := ⟨empty⟩

def isEmpty (s : OrderedSet α) : Bool := s.toList.isEmpty

def size (s : OrderedSet α) : Nat := s.toList.length

/-- The members that pass, in their order. -/
def filter (s : OrderedSet α) (keep : α → Bool) : OrderedSet α :=
  ⟨s.toList.filter keep, s.nodup.filter keep⟩

@[simp]
theorem toList_empty : (empty : OrderedSet α).toList = [] := rfl

@[simp]
theorem toList_filter (s : OrderedSet α) (keep : α → Bool) :
    (s.filter keep).toList = s.toList.filter keep := rfl

variable [DecidableEq α]

def contains (s : OrderedSet α) (a : α) : Bool := decide (a ∈ s.toList)

/-- A new member goes to the end; one that is present already changes nothing. -/
def insert (s : OrderedSet α) (a : α) : OrderedSet α :=
  if h : a ∈ s.toList then s
  else ⟨s.toList ++ [a], by
    refine List.nodup_append.mpr ⟨s.nodup, by simp, ?_⟩
    intro b hb c hc same
    simp only [List.mem_singleton] at hc
    exact h (hc ▸ same ▸ hb)⟩

def insertAll (s : OrderedSet α) (as : List α) : OrderedSet α := as.foldl insert s

def ofList (as : List α) : OrderedSet α := insertAll empty as

/-- The elements of a list that are members already when their turn comes, if all are inserted in
order. -/
def repeated : OrderedSet α → List α → List α
  | _, [] => []
  | s, a :: rest => (if s.contains a then [a] else []) ++ repeated (s.insert a) rest

/-- The elements of a list that are new members when their turn comes. -/
def fresh : OrderedSet α → List α → List α
  | _, [] => []
  | s, a :: rest => (if s.contains a then [] else [a]) ++ fresh (s.insert a) rest

/-- The members of `s` and then those that only `t` has. -/
def union (s t : OrderedSet α) : OrderedSet α := s.insertAll t.toList

theorem contains_iff {s : OrderedSet α} {a : α} : s.contains a = true ↔ a ∈ s.toList := by
  simp [contains]

theorem toList_insert (s : OrderedSet α) (a : α) :
    (s.insert a).toList = if a ∈ s.toList then s.toList else s.toList ++ [a] := by
  unfold insert
  split <;> simp_all

@[simp]
theorem mem_insert {s : OrderedSet α} {a b : α} :
    b ∈ (s.insert a).toList ↔ b ∈ s.toList ∨ b = a := by
  rw [toList_insert]
  split
  · constructor
    · exact Or.inl
    · rintro (h | rfl) <;> assumption
  · simp

@[simp]
theorem mem_insertAll {s : OrderedSet α} {as : List α} {b : α} :
    b ∈ (s.insertAll as).toList ↔ b ∈ s.toList ∨ b ∈ as := by
  induction as generalizing s with
  | nil => simp [insertAll]
  | cons a as ih =>
    have step : s.insertAll (a :: as) = (s.insert a).insertAll as := rfl
    rw [step, ih, mem_insert, List.mem_cons, or_assoc]

@[simp]
theorem mem_union {s t : OrderedSet α} {b : α} :
    b ∈ (s.union t).toList ↔ b ∈ s.toList ∨ b ∈ t.toList := mem_insertAll

@[simp]
theorem mem_ofList {as : List α} {b : α} : b ∈ (ofList as).toList ↔ b ∈ as := by
  simp [ofList]

theorem mem_fresh {s : OrderedSet α} {as : List α} {b : α} :
    b ∈ s.fresh as ↔ b ∈ as ∧ b ∉ s.toList := by
  induction as generalizing s with
  | nil => simp [fresh]
  | cons a as ih =>
    simp only [fresh, List.mem_append, ih, mem_insert, List.mem_cons, contains_iff]
    by_cases h : a ∈ s.toList
    · simp only [h, if_true, List.not_mem_nil, false_or]
      constructor
      · rintro ⟨member, new⟩
        exact ⟨Or.inr member, fun old => new (Or.inl old)⟩
      · rintro ⟨rfl | member, new⟩
        · exact absurd h new
        · exact ⟨member, fun old => old.elim new fun same => new (same ▸ h)⟩
    · simp only [h, if_false, List.mem_singleton, not_or]
      constructor
      · rintro (rfl | ⟨member, new, -⟩)
        · exact ⟨Or.inl rfl, h⟩
        · exact ⟨Or.inr member, new⟩
      · rintro ⟨rfl | member, new⟩
        · exact Or.inl rfl
        · by_cases same : b = a
          · exact Or.inl same
          · exact Or.inr ⟨member, new, same⟩

/-- Nothing is repeated just where no element stands twice or is a member before. -/
theorem repeated_eq_nil_iff {s : OrderedSet α} {as : List α} :
    s.repeated as = [] ↔ as.Nodup ∧ ∀ a ∈ as, a ∉ s.toList := by
  induction as generalizing s with
  | nil => simp [repeated]
  | cons a as ih =>
    simp only [repeated, List.append_eq_nil_iff, ih, mem_insert, List.nodup_cons, List.forall_mem_cons, not_or]
    have first : (if s.contains a = true then [a] else []) = [] ↔ a ∉ s.toList := by
      rw [← contains_iff]
      split <;> simp_all
    rw [first]
    constructor
    · rintro ⟨new, nodup, rest⟩
      exact ⟨⟨fun member => (rest a member).2 rfl, nodup⟩, new, fun b member => (rest b member).1⟩
    · rintro ⟨⟨absent, nodup⟩, new, rest⟩
      exact ⟨new, nodup, fun b member => ⟨rest b member, fun same => absent (same ▸ member)⟩⟩

/-- What is repeated is a member before or stands twice. -/
theorem mem_repeated {s : OrderedSet α} {as : List α} {b : α} :
    b ∈ s.repeated as ↔ b ∈ as ∧ (b ∈ s.toList ∨ 2 ≤ as.count b) := by
  induction as generalizing s with
  | nil => simp [repeated]
  | cons a as ih =>
    have first : b ∈ (if s.contains a = true then [a] else []) ↔ b = a ∧ a ∈ s.toList := by
      rw [← contains_iff]
      split <;> simp_all
    rw [repeated, List.mem_append, first, ih, mem_insert, List.mem_cons]
    by_cases same : b = a
    · simp [same]
    · simp [same, List.count_cons_of_ne (Ne.symm same)]

/-- Inserting a list puts its new elements after the members. -/
theorem toList_insertAll (s : OrderedSet α) (as : List α) :
    (s.insertAll as).toList = s.toList ++ s.fresh as := by
  induction as generalizing s with
  | nil => simp [insertAll, fresh]
  | cons a as ih =>
    have step : s.insertAll (a :: as) = (s.insert a).insertAll as := rfl
    rw [step, ih, toList_insert, fresh]
    by_cases known : a ∈ s.toList
    · simp [known, contains_iff.mpr known]
    · simp [known, Bool.eq_false_iff.mpr fun h => known (contains_iff.mp h)]

theorem fresh_of_nodup {s : OrderedSet α} {as : List α} (nodup : as.Nodup) (new : ∀ a ∈ as, a ∉ s.toList) :
    s.fresh as = as := by
  induction as generalizing s with
  | nil => rfl
  | cons a as ih =>
    obtain ⟨absent, nodup⟩ := List.nodup_cons.mp nodup
    have unknown : s.contains a = false :=
      Bool.eq_false_iff.mpr fun h => new a List.mem_cons_self (contains_iff.mp h)
    rw [fresh, unknown, ih nodup fun b member => ?_]
    · rfl
    · rw [mem_insert, not_or]
      exact ⟨new b (List.mem_cons_of_mem a member), fun same => absent (same ▸ member)⟩

/-- Where nothing stands twice, the members are the elements of the list in their order. -/
theorem toList_ofList {as : List α} (nodup : as.Nodup) : (ofList as).toList = as := by
  rw [ofList, toList_insertAll, fresh_of_nodup nodup fun _ _ => List.not_mem_nil]
  rfl

omit [DecidableEq α] in
theorem isEmpty_iff {s : OrderedSet α} : s.isEmpty = true ↔ s.toList = [] := List.isEmpty_iff

theorem toList_insert_ne_nil (s : OrderedSet α) (a : α) : (s.insert a).toList ≠ [] :=
  List.ne_nil_of_mem (mem_insert.mpr (Or.inr rfl))

end OrderedSet

end Federation
