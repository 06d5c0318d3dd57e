import Mathlib.Data.List.Flatten
import Federation.Proofs.Batch.Taken

/-!
# Fields that more than one subgraph takes over

A batch reports a field that more than one of its subgraphs takes over, and keeps count by the paths under which
they show it. So the report is exact just where a path tells which field is meant and no subgraph takes a field
over twice.
-/

namespace Federation

/-- The field that is taken over, by the canonical name of its type. -/
def Takeover.place (t : Takeover) : String × String := (t.typeName, t.field)

namespace Batch

variable {options : BatchOptions} {subgraphs : List Subgraph}

/-- Whether a subgraph takes the field at a place over from any subgraph. -/
def Declares (options : BatchOptions) (s : Subgraph) (place : String × String) : Prop :=
  ∃ t localName, Takes options s t localName ∧ t.place = place

/-- Whether two subgraphs take the field at a place over. -/
def Contested (options : BatchOptions) (subgraphs : List Subgraph) (place : String × String) : Prop :=
  ∃ s ∈ subgraphs, ∃ s' ∈ subgraphs, s.name ≠ s'.name ∧ Declares options s place ∧ Declares options s' place

/-- An entry of the report for a place: under the path that the subgraphs show it by, exactly the subgraphs that
take the field over, in the order in which they are given. -/
structure Lists (options : BatchOptions) (subgraphs : List Subgraph) (place : String × String)
    (entry : ContestedField) : Prop where
  path : ∀ s ∈ subgraphs, ∀ t localName, Takes options s t localName → t.place = place →
    coordinates localName t.field = entry.path
  ordered : entry.subgraphs.Sublist (givenNames subgraphs)
  exact : ∀ s ∈ subgraphs, ∀ name, s.name = some name → (name ∈ entry.subgraphs ↔ Declares options s place)

/-- Contested fields are reported if there are any, with one entry for each of them. -/
structure ReportsContested (options : BatchOptions) (subgraphs : List Subgraph) : Prop where
  reported : (∃ entries, .contestedFields entries ∈ (normalizeBatch options subgraphs).diagnostics.errors) ↔
    ∃ place, Contested options subgraphs place
  listed : ∀ entries, .contestedFields entries ∈ (normalizeBatch options subgraphs).diagnostics.errors →
    ∃ places : List (String × String), places.Nodup ∧ (∀ place, place ∈ places ↔ Contested options subgraphs place) ∧
      List.Forall₂ (Lists options subgraphs) places entries

/-- Declarations of overrides can be told apart by what they show. -/
structure Legible (options : BatchOptions) (subgraphs : List Subgraph) : Prop where
  /-- Two subgraphs show one path just where they mean one field. -/
  paths : ∀ s ∈ subgraphs, ∀ s' ∈ subgraphs, ∀ t localName t' localName', Takes options s t localName →
    Takes options s' t' localName' →
      (coordinates localName t.field = coordinates localName' t'.field ↔ t.place = t'.place)
  /-- No subgraph takes a field over from two others. -/
  once : ∀ s ∈ subgraphs, ∀ t localName t' localName', Takes options s t localName →
    Takes options s t' localName' → t.place = t'.place → t.target = t'.target

/-! ## What is tallied -/

/-- The fields that a member takes over and shows under a path. -/
def shown (path : String) (x : Subgraph × NormalSubgraph) : List Takeover :=
  x.2.overrides.takeovers.filter fun t => t.path x.2.roots = path

theorem mem_shown {path : String} {x : Subgraph × NormalSubgraph} {t : Takeover} :
    t ∈ shown path x ↔ t ∈ x.2.overrides.takeovers ∧ t.path x.2.roots = path := by
  simp [shown]

/-- What a member shows it declares. -/
theorem takes_of_shown {path : String} {x : Subgraph × NormalSubgraph} (member : x ∈ members options subgraphs)
    {t : Takeover} (shows : t ∈ shown path x) :
    ∃ localName, Takes options x.1 t localName ∧ coordinates localName t.field = path := by
  obtain ⟨taken, here⟩ := mem_shown.mp shows
  obtain ⟨localName, takes⟩ := (exists_takes_iff (mem_members.mp member).2).mpr taken
  exact ⟨localName, takes, here ▸ (path_of_takes (mem_members.mp member).2 takes).symm⟩

theorem exists_shown_of_takes {s : Subgraph} (given : s ∈ subgraphs) {t : Takeover} {localName : String}
    (takes : Takes options s t localName) :
    ∃ n, (s, n) ∈ members options subgraphs ∧ t ∈ shown (coordinates localName t.field) (s, n) := by
  obtain ⟨n, member, taken, path⟩ := exists_member_of_takes given takes
  exact ⟨n, member, mem_shown.mpr ⟨taken, path⟩⟩

theorem one_lt_length_iff {α : Type} {l : List α} (nodup : l.Nodup) :
    1 < l.length ↔ ∃ a ∈ l, ∃ b ∈ l, a ≠ b := by
  match l with
  | [] => simp
  | [_] => simp
  | first :: second :: rest =>
    have different : first ≠ second := fun same => (List.nodup_cons.mp nodup).1 (by simp [same])
    simp only [List.length_cons, Nat.lt_add_left_iff_pos, Nat.zero_lt_succ, true_iff]
    exact ⟨first, by simp, second, by simp, different⟩

/-- The subgraphs that are noted for a path. -/
def noted (options : BatchOptions) (subgraphs : List Subgraph) (path : String) : List String :=
  (mergeAll options subgraphs).overriders.getD path []

section Noted

variable (w : WellFormed options subgraphs) {path : String}

include w

theorem noted_eq (path : String) : noted options subgraphs path =
    (members options subgraphs).flatMap fun x => (shown path x).map fun _ => x.1.name.getD "" := by
  -- Of what is tallied for a member, its entries under this path are what it shows there.
  rw [noted, (tallied_mergeAll options w.named).overriders, List.filter_flatMap, List.map_flatMap]
  refine List.flatMap_congr fun x _ => ?_
  rw [entriesOf, List.filter_map, List.map_map]
  rfl

theorem mem_contested_iff :
    path ∈ (mergeAll options subgraphs).contested.toList ↔ 1 < (noted options subgraphs path).length := by
  have tallied := tallied_mergeAll options w.named
  rw [tallied.contested, noted, tallied.overriders, List.length_map]

theorem mem_noted_iff {x : Subgraph × NormalSubgraph} (member : x ∈ members options subgraphs) {name : String}
    (named : x.1.name = some name) : name ∈ noted options subgraphs path ↔ ∃ t, t ∈ shown path x := by
  rw [noted_eq w, List.mem_flatMap]
  constructor
  · rintro ⟨y, other, called⟩
    obtain ⟨t, shows, called⟩ := List.mem_map.mp called
    obtain ⟨name', named'⟩ := w.exists_name (mem_members.mp other).1
    -- No two subgraphs have one name, so it was this member that was noted.
    have same : y.1.name = x.1.name := by
      rw [named', named, ← called, named']
      rfl
    exact ⟨t, w.eq_of_name other member same ▸ shows⟩
  · rintro ⟨t, shows⟩
    exact ⟨x, member, List.mem_map.mpr ⟨t, shows, by rw [named]; rfl⟩⟩

/-- Where no name is noted twice, a member shows one field at most. -/
theorem eq_of_shown (once : (noted options subgraphs path).Nodup) {x : Subgraph × NormalSubgraph}
    (member : x ∈ members options subgraphs) {t t' : Takeover} (shows : t ∈ shown path x)
    (shows' : t' ∈ shown path x) : t = t' := by
  -- A member is noted once for each field that it shows, always by the same name.
  rw [noted_eq w] at once
  have part := (List.singleton_sublist.mpr member).flatMap fun x => (shown path x).map fun _ => x.1.name.getD ""
  have nodup := part.nodup once
  rw [List.flatMap_singleton] at nodup
  exact List.inj_on_of_nodup_map nodup shows shows' rfl

theorem nodup_noted_of_notMem (quiet : path ∉ (mergeAll options subgraphs).contested.toList) :
    (noted options subgraphs path).Nodup := by
  rw [mem_contested_iff w, Nat.not_lt] at quiet
  match few : noted options subgraphs path with
  | [] => exact List.nodup_nil
  | [_] => exact List.nodup_singleton _
  | _ :: _ :: _ => simp [few] at quiet

/-- Under a path that is not contested, one field at most is shown by anybody. -/
theorem eq_of_notMem_contested (quiet : path ∉ (mergeAll options subgraphs).contested.toList)
    {x y : Subgraph × NormalSubgraph} (first : x ∈ members options subgraphs) (second : y ∈ members options subgraphs)
    {t t' : Takeover} (shows : t ∈ shown path x) (shows' : t' ∈ shown path y) : x = y ∧ t = t' := by
  -- Two names under one path would be enough to contest it.
  have once := nodup_noted_of_notMem w quiet
  obtain ⟨name, named⟩ := w.exists_name (mem_members.mp first).1
  obtain ⟨name', named'⟩ := w.exists_name (mem_members.mp second).1
  have inside := (mem_noted_iff w first named).mpr ⟨t, shows⟩
  have inside' := (mem_noted_iff w second named').mpr ⟨t', shows'⟩
  have same : name = name' := by
    by_contra different
    exact quiet ((mem_contested_iff w).mpr ((one_lt_length_iff once).mpr ⟨name, inside, name', inside', different⟩))
  obtain rfl := w.eq_of_name first second (by rw [named, named', same])
  exact ⟨rfl, eq_of_shown w once first shows shows'⟩

/-- Where each member shows one field at most, names are noted in the order in which they are given. -/
theorem noted_sublist (once : ∀ x ∈ members options subgraphs, ∀ t ∈ shown path x, ∀ t' ∈ shown path x, t = t') :
    (noted options subgraphs path).Sublist (givenNames subgraphs) := by
  have each : ∀ x ∈ members options subgraphs,
      ((shown path x).map fun _ => x.1.name.getD "").Sublist [x.1.name.getD ""] := by
    intro x member
    have nodup : (shown path x).Nodup := x.2.overrides.nodup_takeovers.filter _
    have alike := once x member
    match shows : shown path x with
    | [] => exact List.nil_sublist _
    | [_] => exact List.Sublist.refl _
    | t :: t' :: rest =>
      have same : t = t' := alike t (by simp [shows]) t' (by simp [shows])
      exact absurd (shows ▸ nodup) (by simp [same])
  have names : (members options subgraphs).map (fun x => x.1.name.getD "") =
      (members options subgraphs).filterMap (·.1.name) := by
    rw [← List.filterMap_eq_map]
    refine List.filterMap_congr fun x member => ?_
    obtain ⟨name, named⟩ := w.exists_name (mem_members.mp member).1
    simp [named]
  rw [noted_eq w]
  -- Members stand in the order of the subgraphs, and those that show nothing are left out.
  refine (List.Sublist.flatMap_right _ each).trans ?_
  rw [← List.map_eq_flatMap, names]
  exact names_members_sublist options subgraphs

/-- In a batch that is otherwise in order, what is contested is all that is reported of overrides. -/
theorem mem_errors_iff {entries : List ContestedField} :
    .contestedFields entries ∈ (normalizeBatch options subgraphs).diagnostics.errors ↔
      (mergeAll options subgraphs).contested.toList ≠ [] ∧
        entries = (mergeAll options subgraphs).contested.toList.map fun path =>
          ⟨path, noted options subgraphs path⟩ := by
  have failures := failures_eq_nil_iff.mpr w.valid
  have limits : ∀ (m : Merger), Error.contestedFields entries ∉
      if m.overLimit.isEmpty then [] else [.tooManyScopes options.maxOrScopes m.overLimit.toList] := by
    intro m
    split <;> simp
  have names : Error.contestedFields entries ∉ nameErrors subgraphs := by
    unfold nameErrors
    dsimp only
    split <;> simp
  simp only [normalizeBatch, List.mem_append, limits, names, failures, List.not_mem_nil, or_false, false_or]
  unfold contestedErrors
  dsimp only
  split
  · next none =>
    have none : (mergeAll options subgraphs).contested.toList = [] := by simpa using none
    simp [none]
  · next some =>
    have some : (mergeAll options subgraphs).contested.toList ≠ [] := by simpa using some
    simp [some, noted]

end Noted

/-! ## The report -/

theorem path_congr {t t' : Takeover} (same : t.place = t'.place) (roots : RootTypes) :
    t.path roots = t'.path roots := by
  obtain ⟨type, field⟩ := Prod.mk.inj same
  rw [Takeover.path, Takeover.path, type, field]

section Reported

variable (w : WellFormed options subgraphs) (reports : ReportsContested options subgraphs)

include w reports

/-- A path that is contested is listed for a field that is. -/
theorem exists_lists {path : String} (contested : path ∈ (mergeAll options subgraphs).contested.toList) :
    ∃ place, Lists options subgraphs place ⟨path, noted options subgraphs path⟩ := by
  obtain ⟨places, -, -, lists⟩ :=
    reports.listed _ ((mem_errors_iff w).mpr ⟨List.ne_nil_of_mem contested, rfl⟩)
  obtain ⟨place, -, lists⟩ := exists_of_forall₂ lists (List.mem_map.mpr ⟨path, contested, rfl⟩)
  exact ⟨place, lists⟩

/-- No name is noted twice, since the names that are listed are given, each to one subgraph. -/
theorem nodup_noted (path : String) : (noted options subgraphs path).Nodup := by
  by_cases contested : path ∈ (mergeAll options subgraphs).contested.toList
  · obtain ⟨place, lists⟩ := exists_lists w reports contested
    exact lists.ordered.nodup w.distinct
  · exact nodup_noted_of_notMem w contested

/-- Subgraphs that show a path in common show one field under it. -/
theorem place_of_shown {path : String} {x y : Subgraph × NormalSubgraph} (first : x ∈ members options subgraphs)
    (second : y ∈ members options subgraphs) {t t' : Takeover} (shows : t ∈ shown path x)
    (shows' : t' ∈ shown path y) : t.place = t'.place := by
  have once := nodup_noted w reports path
  by_cases same : x.1.name = y.1.name
  · obtain rfl := w.eq_of_name first second same
    exact congrArg Takeover.place (eq_of_shown w once first shows shows')
  · obtain ⟨name, named⟩ := w.exists_name (mem_members.mp first).1
    obtain ⟨name', named'⟩ := w.exists_name (mem_members.mp second).1
    have inside := (mem_noted_iff w first named).mpr ⟨t, shows⟩
    have inside' := (mem_noted_iff w second named').mpr ⟨t', shows'⟩
    have different : name ≠ name' := fun one => same (by rw [named, named', one])
    have contested := (mem_contested_iff w).mpr
      ((one_lt_length_iff once).mpr ⟨name, inside, name', inside', different⟩)
    obtain ⟨place, lists⟩ := exists_lists w reports contested
    -- What a subgraph declares at the place that is listed is the only field that it shows.
    have here : ∀ {z : Subgraph × NormalSubgraph} {name : String} {u : Takeover}, z ∈ members options subgraphs →
        z.1.name = some name → name ∈ noted options subgraphs path → u ∈ shown path z → u.place = place := by
      rintro ⟨s, n⟩ name u member named inside shows
      have given := (mem_members.mp member).1
      obtain ⟨v, localName, takes, declared⟩ := (lists.exact s given name named).mp inside
      obtain ⟨n', member', shows'⟩ := exists_shown_of_takes given takes
      obtain ⟨-, rfl⟩ := Prod.mk.inj (w.eq_of_name member member' rfl)
      rw [lists.path _ given v localName takes declared] at shows'
      exact eq_of_shown w once member shows shows' ▸ declared
    exact (here first named inside shows).trans (here second named' inside' shows').symm

theorem legible_of_reportsContested : Legible options subgraphs := by
  constructor
  case paths =>
    intro s given s' given' t localName t' localName' takes takes'
    obtain ⟨n, member, shows⟩ := exists_shown_of_takes given takes
    obtain ⟨n', member', shows'⟩ := exists_shown_of_takes given' takes'
    constructor
    · intro path
      exact place_of_shown w reports member member' (path ▸ shows) shows'
    · intro place
      by_cases same : s.name = s'.name
      · obtain ⟨rfl, rfl⟩ := Prod.mk.inj (w.eq_of_name member member' same)
        rw [← (mem_shown.mp shows).2, ← (mem_shown.mp shows').2]
        exact path_congr place n.roots
      -- A field that two subgraphs take over is listed under one path.
      · have contested : Contested options subgraphs t.place :=
          ⟨s, given, s', given', same, ⟨t, localName, takes, rfl⟩, ⟨t', localName', takes', place.symm⟩⟩
        obtain ⟨entries, error⟩ := reports.reported.mpr ⟨_, contested⟩
        obtain ⟨places, -, exact, lists⟩ := reports.listed entries error
        obtain ⟨entry, -, lists⟩ := exists_of_forall₂ lists.flip ((exact _).mpr contested)
        rw [lists.path s given t localName takes rfl, lists.path s' given' t' localName' takes' place.symm]
  case once =>
    intro s given t localName t' localName' takes takes' place
    obtain ⟨n, member, shows⟩ := exists_shown_of_takes given takes
    obtain ⟨n', member', shows'⟩ := exists_shown_of_takes given takes'
    obtain ⟨-, rfl⟩ := Prod.mk.inj (w.eq_of_name member member' rfl)
    have path : coordinates localName t.field = coordinates localName' t'.field := by
      rw [← (mem_shown.mp shows).2, ← (mem_shown.mp shows').2]
      exact path_congr place n.roots
    exact congrArg Takeover.target
      (eq_of_shown w (nodup_noted w reports _) member shows (path ▸ shows'))

end Reported

/-- The field that is shown under a path. -/
def placeAt (options : BatchOptions) (subgraphs : List Subgraph) (path : String) : String × String :=
  ((((members options subgraphs).flatMap (shown path)).head?).map Takeover.place).getD ("", "")

section Legible

variable (w : WellFormed options subgraphs) (legible : Legible options subgraphs) {path : String}

include legible

/-- Members show one path just where they mean one field. -/
theorem path_eq_iff {path' : String} {x y : Subgraph × NormalSubgraph} (first : x ∈ members options subgraphs)
    (second : y ∈ members options subgraphs) {t t' : Takeover} (shows : t ∈ shown path x)
    (shows' : t' ∈ shown path' y) : path = path' ↔ t.place = t'.place := by
  obtain ⟨localName, takes, rfl⟩ := takes_of_shown first shows
  obtain ⟨localName', takes', rfl⟩ := takes_of_shown second shows'
  exact legible.paths _ (mem_members.mp first).1 _ (mem_members.mp second).1 _ _ _ _ takes takes'

theorem placeAt_of_shown {x : Subgraph × NormalSubgraph} (member : x ∈ members options subgraphs) {t : Takeover}
    (shows : t ∈ shown path x) : placeAt options subgraphs path = t.place := by
  have inside : t ∈ (members options subgraphs).flatMap (shown path) := List.mem_flatMap.mpr ⟨x, member, shows⟩
  unfold placeAt
  cases first : ((members options subgraphs).flatMap (shown path)).head? with
  | none => exact absurd (List.head?_eq_none_iff.mp first ▸ inside) List.not_mem_nil
  | some u =>
    obtain ⟨y, member', shows'⟩ := List.mem_flatMap.mp (List.mem_of_head? first)
    exact (path_eq_iff legible member' member shows' shows).mp rfl

theorem noted_sublist_of_legible (w : WellFormed options subgraphs) (path : String) :
    (noted options subgraphs path).Sublist (givenNames subgraphs) := by
  -- What a member shows under one path is one field, which it takes over from one subgraph only.
  refine noted_sublist w fun x member t shows t' shows' => ?_
  have place := (path_eq_iff legible member member shows shows').mp rfl
  obtain ⟨localName, takes, -⟩ := takes_of_shown member shows
  obtain ⟨localName', takes', -⟩ := takes_of_shown member shows'
  have target := legible.once _ (mem_members.mp member).1 _ _ _ _ takes takes' place
  obtain ⟨type, field⟩ := Prod.mk.inj place
  obtain ⟨_, _, _⟩ := t
  obtain ⟨_, _, _⟩ := t'
  simp_all

include w

/-- Under a path that somebody shows, a subgraph is noted just where it takes over the field that is meant. -/
theorem mem_noted_iff_declares {x : Subgraph × NormalSubgraph} (member : x ∈ members options subgraphs) {t : Takeover}
    (shows : t ∈ shown path x) {s : Subgraph} (given : s ∈ subgraphs) {name : String} (named : s.name = some name) :
    name ∈ noted options subgraphs path ↔ Declares options s (placeAt options subgraphs path) := by
  obtain ⟨n, member'⟩ := w.exists_member given
  rw [mem_noted_iff w member' named]
  constructor
  · rintro ⟨u, shows'⟩
    obtain ⟨localName, takes, -⟩ := takes_of_shown member' shows'
    exact ⟨u, localName, takes, (placeAt_of_shown legible member' shows').symm⟩
  · rintro ⟨u, localName, takes, place⟩
    obtain ⟨n', member'', shows'⟩ := exists_shown_of_takes given takes
    obtain ⟨-, rfl⟩ := Prod.mk.inj (w.eq_of_name member'' member' rfl)
    have here := (path_eq_iff legible member' member shows' shows).mpr
      (place.trans (placeAt_of_shown legible member shows))
    exact ⟨u, here ▸ shows'⟩

theorem exists_shown_of_contested (contested : path ∈ (mergeAll options subgraphs).contested.toList) :
    ∃ x ∈ members options subgraphs, ∃ t, t ∈ shown path x := by
  rw [mem_contested_iff w] at contested
  obtain ⟨name, inside⟩ := List.exists_mem_of_length_pos (Nat.zero_lt_of_lt contested)
  obtain ⟨s, given, named⟩ := List.mem_filterMap.mp ((noted_sublist_of_legible legible w path).subset inside)
  obtain ⟨n, member⟩ := w.exists_member given
  exact ⟨(s, n), member, (mem_noted_iff w member named).mp inside⟩

theorem lists_of_contested (contested : path ∈ (mergeAll options subgraphs).contested.toList) :
    Lists options subgraphs (placeAt options subgraphs path) ⟨path, noted options subgraphs path⟩ := by
  obtain ⟨x, member, t, shows⟩ := exists_shown_of_contested w legible contested
  refine ⟨fun s given u localName takes place => ?_, noted_sublist_of_legible legible w path, fun s given name named =>
    mem_noted_iff_declares w legible member shows given named⟩
  obtain ⟨n, member', shows'⟩ := exists_shown_of_takes given takes
  exact (path_eq_iff legible member' member shows' shows).mpr (place.trans (placeAt_of_shown legible member shows))

/-- The fields that are shown under contested paths are those that two subgraphs take over. -/
theorem contested_iff {place : String × String} :
    (∃ path ∈ (mergeAll options subgraphs).contested.toList, placeAt options subgraphs path = place) ↔
      Contested options subgraphs place := by
  -- Names of subgraphs are distinct, so that two entries for a path are of two subgraphs.
  have once : ∀ path, (noted options subgraphs path).Nodup := fun path =>
    (noted_sublist_of_legible legible w path).nodup w.distinct
  constructor
  · rintro ⟨path, contested, rfl⟩
    have lists := lists_of_contested w legible contested
    obtain ⟨name, one, name', other, different⟩ :=
      (one_lt_length_iff (once path)).mp ((mem_contested_iff w).mp contested)
    obtain ⟨s, given, named⟩ := List.mem_filterMap.mp (lists.ordered.subset one)
    obtain ⟨s', given', named'⟩ := List.mem_filterMap.mp (lists.ordered.subset other)
    refine ⟨s, given, s', given', ?_, (lists.exact s given name named).mp one,
      (lists.exact s' given' name' named').mp other⟩
    rw [named, named']
    exact fun same => different (Option.some.inj same)
  · rintro ⟨s, given, s', given', different, ⟨t, localName, takes, here⟩, declared'⟩
    obtain ⟨n, member, shows⟩ := exists_shown_of_takes given takes
    obtain ⟨name, named⟩ := w.exists_name given
    obtain ⟨name', named'⟩ := w.exists_name given'
    have place := (placeAt_of_shown legible member shows).trans here
    refine ⟨coordinates localName t.field, (mem_contested_iff w).mpr ((one_lt_length_iff (once _)).mpr
      ⟨name, ?_, name', ?_, fun same => different (by rw [named, named', same])⟩), place⟩
    · exact (mem_noted_iff w member named).mpr ⟨t, shows⟩
    · exact (mem_noted_iff_declares w legible member shows given' named').mpr (place.symm ▸ declared')

theorem reportsContested_of_legible : ReportsContested options subgraphs := by
  constructor
  case reported =>
    simp only [mem_errors_iff w, exists_and_left, exists_eq, and_true]
    constructor
    · intro some
      obtain ⟨path, contested⟩ := List.exists_mem_of_ne_nil _ some
      exact ⟨_, (contested_iff w legible).mp ⟨path, contested, rfl⟩⟩
    · rintro ⟨place, contested⟩
      obtain ⟨path, contested, -⟩ := (contested_iff w legible).mpr contested
      exact List.ne_nil_of_mem contested
  case listed =>
    intro entries error
    obtain ⟨-, rfl⟩ := (mem_errors_iff w).mp error
    refine ⟨(mergeAll options subgraphs).contested.toList.map (placeAt options subgraphs), ?_, fun place => ?_, ?_⟩
    -- Fields that are shown under two paths are two.
    · refine (mergeAll options subgraphs).contested.nodup.map_on fun path one path' other same => ?_
      obtain ⟨x, member, t, shows⟩ := exists_shown_of_contested w legible one
      obtain ⟨y, member', t', shows'⟩ := exists_shown_of_contested w legible other
      rw [placeAt_of_shown legible member shows, placeAt_of_shown legible member' shows'] at same
      exact (path_eq_iff legible member member' shows shows').mpr same
    · rw [List.mem_map]
      exact contested_iff w legible
    · rw [List.forall₂_map_left_iff, List.forall₂_map_right_iff, List.forall₂_same]
      exact fun path contested => lists_of_contested w legible contested

end Legible

/-- Whether declarations can be told apart is seen from what the members hand out. -/
theorem legible_of_members (paths : ∀ x ∈ members options subgraphs, ∀ y ∈ members options subgraphs,
      ∀ t ∈ x.2.overrides.takeovers, ∀ t' ∈ y.2.overrides.takeovers,
        t.path x.2.roots = t'.path y.2.roots ↔ t.place = t'.place)
    (once : ∀ x ∈ members options subgraphs, ∀ t ∈ x.2.overrides.takeovers, ∀ t' ∈ x.2.overrides.takeovers,
      t.place = t'.place → t.target = t'.target) : Legible options subgraphs := by
  constructor
  case paths =>
    intro s given s' given' t localName t' localName' takes takes'
    obtain ⟨n, member, taken, path⟩ := exists_member_of_takes given takes
    obtain ⟨n', member', taken', path'⟩ := exists_member_of_takes given' takes'
    rw [← path, ← path']
    exact paths _ member _ member' t taken t' taken'
  case once =>
    intro s given t localName t' localName' takes takes' place
    obtain ⟨n, member, taken, -⟩ := exists_member_of_takes given takes
    have valid := (mem_members.mp member).2
    exact once _ member t taken t' ((exists_takes_iff valid).mp ⟨localName', takes'⟩) place

end Batch

open Batch

/-- In a batch whose subgraphs all have names of their own and are valid, contested fields are reported exactly, each
of them once with the subgraphs that take it over in order, just where the declarations can be told apart by the
paths that they show and no subgraph takes a field over from two others. -/
theorem reportsContested_iff {options : BatchOptions} {subgraphs : List Subgraph}
    (w : WellFormed options subgraphs) :
    ReportsContested options subgraphs ↔ Legible options subgraphs :=
  ⟨legible_of_reportsContested w, reportsContested_of_legible w⟩

/-- A batch in which two subgraphs take one field over, the first of them with the given name for its query
type. -/
def takingBatch (typeName : String) : List Subgraph :=
  [givingSubgraph, takingSubgraph "B" "A" typeName, takingSubgraph "C" "A" "Query"]

theorem takingBatch_reported : WellFormed .default (takingBatch "Query") ∧
    ReportsContested .default (takingBatch "Query") := by
  have w : WellFormed .default (takingBatch "Query") := by decide +kernel
  refine ⟨w, (reportsContested_iff w).mpr (legible_of_members ?_ ?_)⟩
  · decide +kernel
  · decide +kernel

/-- Where the first of them calls its query type by another name, nothing is reported. -/
theorem takingBatch_missed : WellFormed .default (takingBatch "Root") ∧
    ¬ ReportsContested .default (takingBatch "Root") := by
  refine ⟨by decide +kernel, fun reports => ?_⟩
  have taken : ∀ name ∈ ["B", "C"], ∃ s ∈ takingBatch "Root", s.name = some name ∧
      Declares .default s ("Query", "a") := by
    intro name listed
    have member : ((members .default (takingBatch "Root")).any fun x =>
        x.1.name = some name ∧ ⟨"A", "Query", "a"⟩ ∈ x.2.overrides.takeovers) = true := by
      revert name
      decide +kernel
    obtain ⟨x, member, declared⟩ := List.any_eq_true.mp member
    obtain ⟨named, declared⟩ := of_decide_eq_true declared
    obtain ⟨given, valid⟩ := mem_members.mp member
    obtain ⟨localName, takes⟩ := (exists_takes_iff valid).mpr declared
    exact ⟨x.1, given, named, _, localName, takes, rfl⟩
  obtain ⟨s, given, named, declares⟩ := taken "B" (by simp)
  obtain ⟨s', given', named', declares'⟩ := taken "C" (by simp)
  obtain ⟨entries, error⟩ := reports.reported.mpr
    ⟨("Query", "a"), s, given, s', given', by rw [named, named']; decide, declares, declares'⟩
  have quiet : (normalizeBatch .default (takingBatch "Root")).diagnostics.errors.isEmpty = true := by
    decide +kernel
  rw [List.isEmpty_iff.mp quiet] at error
  exact absurd error List.not_mem_nil

end Federation
