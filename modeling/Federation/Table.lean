/-!
Tables that list their entries in order of arrival. Writing to a key that is present keeps its
place, and removing a key keeps the order of the others.
-/

namespace Federation

/-- A finite map whose entries are listed in the order in which their keys were first written. -/
structure Table (κ β : Type) where
  toList : List (κ × β)
  nodup_keys : (toList.map Prod.fst).Nodup

namespace Table

variable {κ β γ : Type}

@[ext]
theorem ext {t u : Table κ β} (same : t.toList = u.toList) : t = u := by
  cases t; cases u; simp_all

def empty : Table κ β := ⟨[], List.nodup_nil⟩

instance : EmptyCollection (Table κ β) := ⟨empty⟩

instance : Inhabited (Table κ β) := ⟨empty⟩

def isEmpty (t : Table κ β) : Bool := t.toList.isEmpty

def size (t : Table κ β) : Nat := t.toList.length

def keys (t : Table κ β) : List κ := t.toList.map Prod.fst

def values (t : Table κ β) : List β := t.toList.map Prod.snd

/-- Every value is replaced; keys and order stay. -/
def map (t : Table κ β) (f : κ → β → γ) : Table κ γ :=
  ⟨t.toList.map fun (k, v) => (k, f k v), by
    simpa [List.map_map, Function.comp_def] using t.nodup_keys⟩

/-- The entries that pass, in their order. -/
def filter (t : Table κ β) (keep : κ → β → Bool) : Table κ β :=
  ⟨t.toList.filter fun (k, v) => keep k v,
    (List.Sublist.map Prod.fst List.filter_sublist).nodup t.nodup_keys⟩

/-- The entries that have a new value, with that value, in their order. -/
def filterMap (t : Table κ β) (f : κ → β → Option γ) : Table κ γ :=
  ⟨t.toList.filterMap fun (k, v) => (f k v).map (k, ·), by
    have sub : ∀ l : List (κ × β),
        ((l.filterMap fun (k, v) => (f k v).map (k, ·)).map Prod.fst).Sublist (l.map Prod.fst) := by
      intro l
      induction l with
      | nil => simp
      | cons e l ih =>
        obtain ⟨k, v⟩ := e
        cases h : f k v with
        | none => simpa [List.filterMap_cons, h] using ih.cons k
        | some w => simpa [List.filterMap_cons, h] using ih
    exact (sub t.toList).nodup t.nodup_keys⟩

@[simp]
theorem toList_empty : (empty : Table κ β).toList = [] := rfl

theorem keys_map (t : Table κ β) (f : κ → β → γ) : (t.map f).keys = t.keys := by
  simp [keys, map, Function.comp_def]

variable [DecidableEq κ]

def get? (t : Table κ β) (k : κ) : Option β := (t.toList.find? (·.1 = k)).map Prod.snd

/-- The value at a key, or the given one where the key is absent. -/
def getD (t : Table κ β) (k : κ) (default : β) : β := (t.get? k).getD default

def contains (t : Table κ β) (k : κ) : Bool := decide (k ∈ t.keys)

/-- Writes `f` of what the key holds, in its place, or at the end for a new key. -/
def upsertEntries (k : κ) (f : Option β → β) : List (κ × β) → List (κ × β)
  | [] => [(k, f none)]
  | e :: r => if e.1 = k then (e.1, f (some e.2)) :: r else e :: upsertEntries k f r

theorem keys_upsertEntries (k : κ) (f : Option β → β) (l : List (κ × β)) :
    (upsertEntries k f l).map Prod.fst =
      if k ∈ l.map Prod.fst then l.map Prod.fst else l.map Prod.fst ++ [k] := by
  induction l with
  | nil => simp [upsertEntries]
  | cons e r ih =>
    by_cases h : e.1 = k
    · simp [upsertEntries, h]
    · have h' : ¬ k = e.1 := fun same => h same.symm
      simp only [upsertEntries, h, if_false, List.map_cons, ih, List.mem_cons, h', false_or]
      split <;> simp

/-- Writes `f` of what the key holds, in its place, or at the end for a new key. -/
def upsert (t : Table κ β) (k : κ) (f : Option β → β) : Table κ β :=
  ⟨upsertEntries k f t.toList, by
    rw [keys_upsertEntries]
    split
    · exact t.nodup_keys
    · next absent =>
      refine List.nodup_append.mpr ⟨t.nodup_keys, by simp, ?_⟩
      intro b hb c hc same
      simp only [List.mem_singleton] at hc
      exact absent (hc ▸ same ▸ hb)⟩

def insert (t : Table κ β) (k : κ) (v : β) : Table κ β := t.upsert k fun _ => v

/-- Keeps the value that is there already. -/
def insertNew (t : Table κ β) (k : κ) (v : β) : Table κ β := t.upsert k fun old => old.getD v

/-- Changes the value at a key that is present. -/
def adjust (t : Table κ β) (k : κ) (f : β → β) : Table κ β :=
  t.map fun k' v => if k' = k then f v else v

def erase (t : Table κ β) (k : κ) : Table κ β := t.filter fun k' _ => k' ≠ k

/-- Later entries overwrite earlier ones of the same key. -/
def ofList (entries : List (κ × β)) : Table κ β :=
  entries.foldl (fun t (k, v) => t.insert k v) empty

@[simp]
theorem get?_empty (k : κ) : (empty : Table κ β).get? k = none := rfl

theorem keys_upsert (t : Table κ β) (k : κ) (f : Option β → β) :
    (t.upsert k f).keys = if k ∈ t.keys then t.keys else t.keys ++ [k] :=
  keys_upsertEntries k f t.toList

@[simp]
theorem mem_keys_upsert {t : Table κ β} {k k' : κ} {f : Option β → β} :
    k' ∈ (t.upsert k f).keys ↔ k' ∈ t.keys ∨ k' = k := by
  rw [keys_upsert]
  split
  · constructor
    · exact Or.inl
    · rintro (h | rfl) <;> assumption
  · simp

private theorem find?_upsertEntries (k k' : κ) (f : Option β → β) (l : List (κ × β)) :
    ((upsertEntries k f l).find? (·.1 = k')).map Prod.snd =
      if k' = k then some (f ((l.find? (·.1 = k)).map Prod.snd))
      else (l.find? (·.1 = k')).map Prod.snd := by
  induction l with
  | nil =>
    by_cases h : k' = k
    · simp [upsertEntries, h]
    · have h' : ¬ k = k' := fun same => h same.symm
      simp [upsertEntries, h, h']
  | cons e r ih =>
    by_cases he : e.1 = k
    · by_cases h : k' = k
      · simp [upsertEntries, he, h]
      · have h' : ¬ k = k' := fun same => h same.symm
        simp [upsertEntries, he, h, h']
    · by_cases h : e.1 = k'
      · have h' : ¬ k' = k := fun same => he (h.trans same)
        simp [upsertEntries, h, h']
      · simp only [upsertEntries, he, if_false, List.find?_cons, h, decide_false]
        exact ih

/-- An upsert is seen at its own key and nowhere else. -/
theorem get?_upsert (t : Table κ β) (k k' : κ) (f : Option β → β) :
    (t.upsert k f).get? k' = if k' = k then some (f (t.get? k)) else t.get? k' :=
  find?_upsertEntries k k' f t.toList

@[simp]
theorem get?_insert (t : Table κ β) (k k' : κ) (v : β) :
    (t.insert k v).get? k' = if k' = k then some v else t.get? k' :=
  get?_upsert t k k' _

theorem get?_erase (t : Table κ β) (k k' : κ) :
    (t.erase k).get? k' = if k' = k then none else t.get? k' := by
  unfold erase filter get?
  simp only [List.find?_filter]
  by_cases h : k' = k
  · subst h
    simp
  · rw [if_neg h]
    congr 2
    funext e
    by_cases he : e.1 = k'
    · simp [he, h]
    · simp [he]

theorem contains_iff {t : Table κ β} {k : κ} : t.contains k = true ↔ k ∈ t.keys := by
  simp [contains]

theorem get?_isSome_iff {t : Table κ β} {k : κ} : (t.get? k).isSome = true ↔ k ∈ t.keys := by
  simp [get?, keys, List.find?_isSome]

/-- The entries of a table are its keys with what is found at them. -/
theorem mem_toList {t : Table κ β} {k : κ} {v : β} : (k, v) ∈ t.toList ↔ t.get? k = some v := by
  obtain ⟨l, nodup⟩ := t
  unfold get?
  induction l with
  | nil => simp
  | cons e r ih =>
    obtain ⟨k', v'⟩ := e
    simp only [List.map_cons, List.nodup_cons] at nodup
    simp only [List.mem_cons, Prod.mk.injEq, List.find?_cons]
    by_cases same : k' = k
    · subst same
      have absent : (k', v) ∉ r := fun h => nodup.1 (List.mem_map.mpr ⟨_, h, rfl⟩)
      simp [absent, eq_comm]
    · have other : ¬ k = k' := fun h => same h.symm
      simpa [same, other] using ih nodup.2

theorem mem_values {t : Table κ β} {v : β} : v ∈ t.values ↔ ∃ k, t.get? k = some v := by
  simp [values, mem_toList]

theorem get?_map (t : Table κ β) (f : κ → β → γ) (k : κ) :
    (t.map f).get? k = (t.get? k).map (f k) := by
  obtain ⟨l, nodup⟩ := t
  simp only [get?, map]
  clear nodup
  induction l with
  | nil => rfl
  | cons e r ih =>
    obtain ⟨k', v⟩ := e
    by_cases same : k' = k
    · subst same; simp
    · simpa [same] using ih

theorem get?_adjust (t : Table κ β) (k k' : κ) (f : β → β) :
    (t.adjust k f).get? k' = if k' = k then (t.get? k').map f else t.get? k' := by
  unfold adjust
  rw [get?_map]
  split <;> simp

theorem getD_upsert (t : Table κ β) (k k' : κ) (f : Option β → β) (d : β) :
    (t.upsert k f).getD k' d = if k' = k then f (t.get? k) else t.getD k' d := by
  unfold getD
  rw [get?_upsert]
  split <;> rfl

theorem get?_eq_none_iff {t : Table κ β} {k : κ} : t.get? k = none ↔ k ∉ t.keys := by
  rw [← get?_isSome_iff]
  cases t.get? k <;> simp

theorem mem_keys_of_get? {t : Table κ β} {k : κ} {v : β} (h : t.get? k = some v) : k ∈ t.keys := by
  rw [← get?_isSome_iff, h]; rfl

theorem exists_get?_of_mem_keys {t : Table κ β} {k : κ} (h : k ∈ t.keys) : ∃ v, t.get? k = some v :=
  Option.isSome_iff_exists.mp (get?_isSome_iff.mpr h)

/-- Where only one key counts, going through all entries comes to looking at what it holds. -/
theorem flatMap_toList (t : Table κ β) (k : κ) (f : κ × β → List γ)
    (others : ∀ e ∈ t.toList, e.1 ≠ k → f e = []) :
    t.toList.flatMap f = (t.get? k).toList.flatMap fun v => f (k, v) := by
  obtain ⟨l, nodup⟩ := t
  unfold get?
  induction l with
  | nil => rfl
  | cons e r ih =>
    obtain ⟨k', v⟩ := e
    simp only [List.map_cons, List.nodup_cons] at nodup
    have rest := fun e he => others e (List.mem_cons_of_mem _ he)
    by_cases same : k' = k
    · subst same
      have nothing : r.flatMap f = [] := by
        refine List.flatMap_eq_nil_iff.mpr fun e he => rest e he fun h => nodup.1 ?_
        exact List.mem_map.mpr ⟨e, he, h⟩
      simp [nothing]
    · have first : f (k', v) = [] := others _ List.mem_cons_self same
      simpa [first, same] using ih nodup.2 rest

omit [DecidableEq κ] in
/-- What is made of entries that tell their keys stands once where it stands once for each entry. -/
theorem nodup_flatMap (t : Table κ β) (f : κ → β → List γ) (key : γ → κ) (each : ∀ k v, (f k v).Nodup)
    (tells : ∀ k v, ∀ w ∈ f k v, key w = k) : (t.toList.flatMap fun (k, v) => f k v).Nodup := by
  obtain ⟨l, nodup⟩ := t
  dsimp only
  induction l with
  | nil => exact List.nodup_nil
  | cons e r ih =>
    obtain ⟨absent, rest⟩ := List.nodup_cons.mp nodup
    rw [List.flatMap_cons]
    refine List.nodup_append.mpr ⟨each e.1 e.2, ih rest, fun w first w' later same => absent ?_⟩
    obtain ⟨e', member, made⟩ := List.mem_flatMap.mp later
    have key' : e'.1 = e.1 := (tells _ _ w' made).symm.trans (same ▸ tells _ _ w first)
    exact List.mem_map.mpr ⟨e', member, key'⟩

theorem get?_filterMap (t : Table κ β) (f : κ → β → Option γ) (k : κ) :
    (t.filterMap f).get? k = (t.get? k).bind (f k) := by
  refine Option.ext fun w => ?_
  rw [← mem_toList, Option.bind_eq_some_iff]
  simp only [filterMap, List.mem_filterMap, Option.map_eq_some_iff, Prod.mk.injEq, Prod.exists, mem_toList]
  constructor
  · rintro ⟨_, v, found, _, passed, rfl, rfl⟩
    exact ⟨v, found, passed⟩
  · rintro ⟨v, found, passed⟩
    exact ⟨k, v, found, w, passed, rfl, rfl⟩

omit [DecidableEq κ] in
theorem keys_filterMap_sublist (t : Table κ β) (f : κ → β → Option γ) :
    (t.filterMap f).keys.Sublist t.keys := by
  dsimp only [keys, filterMap]
  generalize t.toList = l
  induction l with
  | nil => exact List.Sublist.slnil
  | cons e r ih =>
    cases passed : f e.1 e.2 with
    | none => simpa [List.filterMap_cons, passed] using ih.cons e.1
    | some w => simpa [List.filterMap_cons, passed] using ih

/-- A new key goes to the end. -/
theorem toList_upsert_of_notMem {t : Table κ β} {k : κ} (absent : k ∉ t.keys) (f : Option β → β) :
    (t.upsert k f).toList = t.toList ++ [(k, f none)] := by
  have fold : ∀ l : List (κ × β), k ∉ l.map Prod.fst → upsertEntries k f l = l ++ [(k, f none)] := by
    intro l fresh
    induction l with
    | nil => rfl
    | cons e r ih =>
      simp only [List.map_cons, List.mem_cons, not_or] at fresh
      simp [upsertEntries, Ne.symm fresh.1, ih fresh.2]
  exact fold t.toList absent

theorem toList_insert_of_notMem {t : Table κ β} {k : κ} (absent : k ∉ t.keys) (v : β) :
    (t.insert k v).toList = t.toList ++ [(k, v)] := toList_upsert_of_notMem absent _

/-- A key that is present keeps what it holds. -/
theorem insertNew_of_mem {t : Table κ β} {k : κ} (present : k ∈ t.keys) (v : β) : t.insertNew k v = t := by
  have fold : ∀ l : List (κ × β), k ∈ l.map Prod.fst → upsertEntries k (fun old => old.getD v) l = l := by
    intro l member
    induction l with
    | nil => exact absurd member List.not_mem_nil
    | cons e r ih =>
      by_cases same : e.1 = k
      · subst same
        simp [upsertEntries]
      · have later : k ∈ r.map Prod.fst := (List.mem_cons.mp member).resolve_left (Ne.symm same)
        simp [upsertEntries, same, ih later]
  exact Table.ext (fold t.toList present)

/-- Where a key does not count, neither does what is written to it. -/
theorem flatMap_toList_upsert (t : Table κ β) (k : κ) (f : Option β → β) (g : κ × β → List γ)
    (nothing : ∀ v, g (k, v) = []) : (t.upsert k f).toList.flatMap g = t.toList.flatMap g := by
  have fold : ∀ l : List (κ × β), (upsertEntries k f l).flatMap g = l.flatMap g := by
    intro l
    induction l with
    | nil => simp [upsertEntries, nothing]
    | cons e r ih =>
      obtain ⟨k', v⟩ := e
      by_cases same : k' = k
      · subst same
        simp [upsertEntries, nothing]
      · simp [upsertEntries, same, ih]
  exact fold t.toList

theorem toList_foldl_insert (entries : List (κ × β)) (t : Table κ β)
    (nodup : (t.keys ++ entries.map Prod.fst).Nodup) :
    (entries.foldl (fun t e => t.insert e.1 e.2) t).toList = t.toList ++ entries := by
  induction entries generalizing t with
  | nil => simp
  | cons e rest ih =>
    have absent : e.1 ∉ t.keys := fun member =>
      (List.nodup_append.mp nodup).2.2 e.1 member e.1 List.mem_cons_self rfl
    have keys : (t.insert e.1 e.2).keys = t.keys ++ [e.1] := by
      simp [keys, toList_insert_of_notMem absent]
    rw [List.foldl_cons, ih, toList_insert_of_notMem absent, List.append_assoc]
    · rfl
    · simpa [keys] using nodup

/-- Where no key stands twice, the entries are those of the list. -/
theorem toList_ofList {entries : List (κ × β)} (nodup : (entries.map Prod.fst).Nodup) :
    (ofList entries).toList = entries :=
  toList_foldl_insert entries empty nodup

end Table

end Federation
