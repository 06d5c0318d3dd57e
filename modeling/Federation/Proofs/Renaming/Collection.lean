import Federation.OrderedSet
import Federation.Table
import Mathlib.Data.List.Forall2
import Mathlib.Data.List.Nodup

/-!
# Sets and tables under injective maps

A map that confuses no members takes sets to sets and tables to tables, in the same order, and commutes with all that
is written to them and read from them.
-/

namespace Federation

/-! ## Lists that agree element by element -/

section Forall₂

variable {α α' β β' : Type} {R : α → α' → Prop} {l : List α} {l' : List α'}

theorem filterMap_of_forall₂ (h : List.Forall₂ R l l') {f : α → Option β} {f' : α' → Option β}
    (same : ∀ a a', R a a' → f' a' = f a) : l'.filterMap f' = l.filterMap f := by
  induction h with
  | nil => rfl
  | cons one _ ih => simp only [List.filterMap_cons, same _ _ one, ih]

theorem flatMap_map_of_forall₂ (h : List.Forall₂ R l l') {f : α → List β} {f' : α' → List β'} {g : β → β'}
    (same : ∀ a a', R a a' → f' a' = (f a).map g) : l'.flatMap f' = (l.flatMap f).map g := by
  induction h with
  | nil => rfl
  | cons one _ ih => simp only [List.flatMap_cons, List.map_append, same _ _ one, ih]

theorem flatMap_eq_nil_of_forall₂ (h : List.Forall₂ R l l') {f : α → List β} {f' : α' → List β'}
    (same : ∀ a a', R a a' → (f' a' = [] ↔ f a = [])) : l'.flatMap f' = [] ↔ l.flatMap f = [] := by
  induction h with
  | nil => simp
  | cons one _ ih => simp only [List.flatMap_cons, List.append_eq_nil_iff, same _ _ one, ih]

end Forall₂

/-- What is reported where anything was found. -/
theorem reported_eq_nil_iff {α β : Type} {found : List α} {report : β} :
    (if found.isEmpty then [] else [report]) = [] ↔ found = [] := by
  cases found <;> simp

namespace OrderedSet

variable {α β : Type} {f : α → β} {injective : Function.Injective f}

/-- The images of the members, in their order. -/
def map (s : OrderedSet α) (f : α → β) (injective : Function.Injective f) : OrderedSet β :=
  ⟨s.toList.map f, s.nodup.map injective⟩

@[simp]
theorem toList_map (s : OrderedSet α) : (s.map f injective).toList = s.toList.map f := rfl

@[simp]
theorem map_empty : map empty f injective = empty := rfl

@[simp]
theorem isEmpty_map (s : OrderedSet α) : (s.map f injective).isEmpty = s.isEmpty := by
  simp [isEmpty]

variable [DecidableEq α] [DecidableEq β]

@[simp]
theorem contains_map (s : OrderedSet α) (a : α) : (s.map f injective).contains (f a) = s.contains a := by
  simp [contains, injective.eq_iff]

theorem insert_map (s : OrderedSet α) (a : α) :
    (s.map f injective).insert (f a) = (s.insert a).map f injective := by
  refine OrderedSet.ext ?_
  simp only [toList_insert, toList_map, List.mem_map_of_injective injective]
  split <;> simp

theorem insertAll_map (s : OrderedSet α) (as : List α) :
    (s.map f injective).insertAll (as.map f) = (s.insertAll as).map f injective := by
  induction as generalizing s with
  | nil => rfl
  | cons a as ih => exact (congrArg (insertAll · (as.map f)) (s.insert_map a)).trans (ih (s.insert a))

theorem fresh_map (s : OrderedSet α) (as : List α) :
    (s.map f injective).fresh (as.map f) = (s.fresh as).map f := by
  induction as generalizing s with
  | nil => rfl
  | cons a as ih =>
    simp only [List.map_cons, fresh, contains_map, insert_map, ih, List.map_append]
    split <;> rfl

theorem repeated_map (s : OrderedSet α) (as : List α) :
    (s.map f injective).repeated (as.map f) = (s.repeated as).map f := by
  induction as generalizing s with
  | nil => rfl
  | cons a as ih =>
    simp only [List.map_cons, repeated, contains_map, insert_map, ih, List.map_append]
    split <;> rfl

end OrderedSet

namespace Table

variable {κ μ β γ : Type} {f : κ → μ} {injective : Function.Injective f} {g : β → γ}

/-- The images of the entries, in their order. -/
def rekey (t : Table κ β) (f : κ → μ) (injective : Function.Injective f) (g : β → γ) : Table μ γ :=
  ⟨t.toList.map fun e => (f e.1, g e.2), by
    have keys : (t.toList.map fun e => (f e.1, g e.2)).map Prod.fst = (t.toList.map Prod.fst).map f := by
      simp [Function.comp_def]
    exact keys ▸ t.nodup_keys.map injective⟩

@[simp]
theorem toList_rekey (t : Table κ β) :
    (t.rekey f injective g).toList = t.toList.map fun e => (f e.1, g e.2) := rfl

@[simp]
theorem rekey_empty : rekey empty f injective g = empty := rfl

@[simp]
theorem keys_rekey (t : Table κ β) : (t.rekey f injective g).keys = t.keys.map f := by
  simp [keys, Function.comp_def]

theorem filterMap_rekey {δ ε : Type} (t : Table κ β) {h : δ → ε} {u : κ → β → Option δ} {u' : μ → γ → Option ε}
    (same : ∀ k v, u' (f k) (g v) = (u k v).map h) :
    (t.rekey f injective g).filterMap u' = (t.filterMap u).rekey f injective h := by
  refine Table.ext ?_
  simp only [filterMap, toList_rekey, List.filterMap_map, List.map_filterMap]
  refine List.filterMap_congr fun e _ => ?_
  simp only [Function.comp_apply, same, Option.map_map]
  rfl

@[simp]
theorem map_empty (h : κ → β → γ) : map empty h = empty := rfl

@[simp]
theorem toList_map (t : Table κ β) (h : κ → β → γ) : (t.map h).toList = t.toList.map fun e => (e.1, h e.1 e.2) := rfl

@[simp]
theorem isEmpty_map (t : Table κ β) (h : κ → β → γ) : (t.map h).isEmpty = t.isEmpty := by
  simp [isEmpty]

@[simp]
theorem size_map (t : Table κ β) (h : κ → β → γ) : (t.map h).size = t.size := by
  simp [size]

@[simp]
theorem values_map (t : Table κ β) : (t.map fun _ => g).values = t.values.map g := by
  simp [values]

variable [DecidableEq κ] [DecidableEq μ]

@[simp]
theorem get?_rekey (t : Table κ β) (k : κ) : (t.rekey f injective g).get? (f k) = (t.get? k).map g := by
  simp only [get?, toList_rekey, List.find?_map, Option.map_map]
  have same : ((fun e : μ × γ => decide (e.1 = f k)) ∘ fun e : κ × β => (f e.1, g e.2)) =
      fun e => decide (e.1 = k) := by
    funext e
    simp [injective.eq_iff]
  rw [same]
  rfl

@[simp]
theorem contains_rekey (t : Table κ β) (k : κ) : (t.rekey f injective g).contains (f k) = t.contains k := by
  simp [contains, injective.eq_iff]

theorem getD_rekey (t : Table κ β) (k : κ) (v : β) : (t.rekey f injective g).getD (f k) (g v) = g (t.getD k v) := by
  simp only [getD, get?_rekey]
  cases t.get? k <;> rfl

theorem upsert_rekey (t : Table κ β) (k : κ) {u : Option β → β} {u' : Option γ → γ}
    (same : ∀ old, u' (old.map g) = g (u old)) :
    (t.rekey f injective g).upsert (f k) u' = (t.upsert k u).rekey f injective g := by
  have fold : ∀ l : List (κ × β), upsertEntries (f k) u' (l.map fun e => (f e.1, g e.2)) =
      (upsertEntries k u l).map fun e => (f e.1, g e.2) := by
    intro l
    induction l with
    | nil => exact congrArg (fun v => [(f k, v)]) (same none)
    | cons e r ih =>
      by_cases h : e.1 = k
      · simp only [List.map_cons, upsertEntries, h, if_true]
        exact congrArg (fun v => (f k, v) :: _) (same (some e.2))
      · simp [upsertEntries, h, injective.eq_iff, ih]
  exact Table.ext (fold t.toList)

theorem insert_rekey (t : Table κ β) (k : κ) (v : β) :
    (t.rekey f injective g).insert (f k) (g v) = (t.insert k v).rekey f injective g :=
  upsert_rekey t k fun _ => rfl

@[simp]
theorem contains_map (t : Table κ β) (h : κ → β → γ) (k : κ) : (t.map h).contains k = t.contains k := by
  simp [contains, keys_map]

omit [DecidableEq μ] in
theorem insert_map (t : Table κ β) (k : κ) (v : β) :
    (t.map fun _ => g).insert k (g v) = (t.insert k v).map fun _ => g :=
  @insert_rekey κ κ β γ id Function.injective_id g _ _ t k v

theorem adjust_rekey (t : Table κ β) (k : κ) {u : β → β} {u' : γ → γ} (same : ∀ v, u' (g v) = g (u v)) :
    (t.rekey f injective g).adjust (f k) u' = (t.adjust k u).rekey f injective g := by
  refine Table.ext ?_
  simp only [adjust, toList_map, toList_rekey, List.map_map]
  refine List.map_congr_left fun e _ => ?_
  by_cases h : e.1 = k <;> simp [h, injective.eq_iff, same]

end Table

end Federation
