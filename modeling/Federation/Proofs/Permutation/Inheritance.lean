import Federation.Proofs.Authorization.Inheritance
import Federation.Proofs.Permutation.Account
import Federation.Proofs.Permutation.Registry

/-!
# Inheritance in another order

Each pass over a ledger is a list of entries that may be exchanged. Ledgers with the same accounts have the same
accounts after all inheritance, whatever the order of types, concrete types and fields.
-/

namespace Federation.Authorization.Ledger

open Schema

variable (limit : Nat)

/-- Where each step of a pass makes entries that were known before it, the pass makes all of them. -/
theorem accounts?_foldl {α : Type} (step : Ledger → α → Ledger) (entries : α → List Entry) (Inv : Ledger → Prop)
    (xs : List α)
    (one : ∀ l, ∀ x ∈ xs, Inv l → Inv (step l x) ∧
      (step l x).accounts? = (entries x).foldl (Entry.post limit) l.accounts?)
    (l : Ledger) (start : Inv l) :
    (xs.foldl step l).accounts? = (xs.flatMap entries).foldl (Entry.post limit) l.accounts? := by
  induction xs generalizing l with
  | nil => rfl
  | cons x xs ih =>
    obtain ⟨kept, made⟩ := one l x List.mem_cons_self start
    rw [List.foldl_cons, ih (fun l y member => one l y (List.mem_cons_of_mem x member)) _ kept, made,
      List.flatMap_cons, List.foldl_append]

theorem accounts?_conjoinFields {α : Type} (path owner field : α → String) (r : α → Requirement) (xs : List α)
    (l : Ledger) :
    (xs.foldl (fun l x => l.conjoinField limit (path x) (owner x) (field x) (r x)) l).accounts? =
      (xs.map fun x => (⟨owner x, .join (field x) (r x).demand⟩ : Entry)).foldl (Entry.post limit) l.accounts? := by
  have made := accounts?_foldl limit (fun l x => l.conjoinField limit (path x) (owner x) (field x) (r x))
    (fun x => [⟨owner x, .join (field x) (r x).demand⟩]) (fun _ => True) xs
    (fun l x _ _ => ⟨trivial, accounts?_conjoinField limit _ _ _ _ l⟩) l trivial
  rwa [← List.map_eq_flatMap] at made

/-! ## Declarations -/

/-- The entries that a declaration makes. -/
def declarationEntries (d : Host × List Directive) : List Entry :=
  match Declared.on limit d.2, d.1 with
  | .nothing, _ => []
  | .overLimit, host => [⟨host.path, .refuse⟩]
  | .requirement r, .field _ owner name => [⟨owner, .askField name r.demand⟩]
  | .requirement r, .leaf typeName => [⟨typeName, .ask r.demand⟩]

theorem accounts?_declare (d : Host × List Directive) (l : Ledger) :
    (l.declare limit d.1 d.2).accounts? = (declarationEntries limit d).foldl (Entry.post limit) l.accounts? := by
  obtain ⟨host, applied⟩ := d
  rw [declare_eq, declarationEntries]
  cases Declared.on limit applied with
  | nothing => rfl
  | overLimit => exact accounts?_refuse limit host.path host.path l
  | requirement r =>
    cases host with
    | field parent owner name =>
      refine accounts?_update limit owner (fun record => record.updateField name (·.accumulate r))
        (.askField name r.demand) l _ rfl rfl ?_
      simp [Change.apply, Account.writeField, writeAt, Record.fields_account, Record.account_updateField,
        Requirement.demand_accumulate]
    | leaf typeName =>
      refine accounts?_update limit typeName
        (fun record => { record with requirement := record.requirement.accumulate r }) (.ask r.demand) l _ rfl rfl ?_
      simp [Change.apply, Record.account, Requirement.demand_accumulate]

theorem exchanges_declarationEntries {d d' : Host × List Directive} :
    ∀ e ∈ declarationEntries limit d, ∀ e' ∈ declarationEntries limit d', e.Exchanges e' := by
  intro e member e' member' _
  unfold declarationEntries at member member'
  split at member <;> split at member' <;> simp_all [Change.Exchanges]

theorem accounts?_declareAll (ds : List (Host × List Directive)) (l : Ledger) :
    (l.declareAll limit ds).accounts? = (ds.flatMap (declarationEntries limit)).foldl (Entry.post limit) l.accounts? :=
  accounts?_foldl limit _ (declarationEntries limit) (fun _ => True) ds
    (fun l d _ _ => ⟨trivial, accounts?_declare limit d l⟩) l trivial

/-- The order of declarations does not matter for the accounts. -/
theorem accounts?_declareAll_perm {ds ds' : List (Host × List Directive)} (perm : ds.Perm ds') (l : Ledger) :
    (l.declareAll limit ds).accounts? = (l.declareAll limit ds').accounts? := by
  rw [accounts?_declareAll, accounts?_declareAll]
  refine Entry.foldl_post_perm limit (perm.flatMap_right _) (fun e member e' member' => ?_) _
  obtain ⟨d, -, made⟩ := List.mem_flatMap.mp member
  obtain ⟨d', -, made'⟩ := List.mem_flatMap.mp member'
  exact exchanges_declarationEntries limit e made e' made'

theorem mem_leafTypes_declare_iff (d : Host × List Directive) (l : Ledger) (typeName : String) :
    typeName ∈ (l.declare limit d.1 d.2).leafTypes.toList ↔
      typeName ∈ l.leafTypes.toList ∨ ∃ e ∈ declarationEntries limit d, ∃ r, e = ⟨typeName, .ask r⟩ := by
  obtain ⟨host, applied⟩ := d
  rw [declare_eq, declarationEntries]
  cases Declared.on limit applied with
  | nothing => simp
  | overLimit => simp
  | requirement r => cases host <;> simp

/-- Leaf types are those that something is asked of. -/
theorem mem_leafTypes_declareAll_iff (ds : List (Host × List Directive)) (l : Ledger) (typeName : String) :
    typeName ∈ (l.declareAll limit ds).leafTypes.toList ↔
      typeName ∈ l.leafTypes.toList ∨
        ∃ e ∈ ds.flatMap (declarationEntries limit), ∃ r, e = ⟨typeName, .ask r⟩ := by
  unfold declareAll
  induction ds generalizing l with
  | nil => simp
  | cons d ds ih => simp only [List.foldl_cons, ih, mem_leafTypes_declare_iff, List.flatMap_cons, List.mem_append,
      or_assoc, or_and_right, exists_or]

/-! ## Records of leaf types -/

/-- Every leaf type has a record. -/
def Tracks (l : Ledger) : Prop := ∀ typeName ∈ l.leafTypes.toList, typeName ∈ l.records.keys

theorem tracks_empty : empty.Tracks := nofun

theorem tracks_update {l : Ledger} (before : l.Tracks) {owner : String} {f : Record → Record} {heirs : List Heir}
    {overLimit : NameSet} : Tracks ⟨l.records.update owner f, l.leafTypes, heirs, overLimit⟩ :=
  fun typeName member => Table.mem_keys_upsert.mpr (Or.inl (before typeName member))

theorem tracks_declare (d : Host × List Directive) {l : Ledger} (before : l.Tracks) :
    (l.declare limit d.1 d.2).Tracks := by
  rw [declare_eq]
  cases Declared.on limit d.2 with
  | nothing => exact before
  | overLimit => exact before
  | requirement r =>
    cases d.1 with
    | field parent owner name => exact tracks_update before
    | leaf typeName =>
      exact fun other member => Table.mem_keys_upsert.mpr ((OrderedSet.mem_insert.mp member).imp_left (before other))

theorem tracks_declareAll (ds : List (Host × List Directive)) {l : Ledger} (before : l.Tracks) :
    (l.declareAll limit ds).Tracks :=
  List.foldlRecOn ds _ before fun _ before d _ => tracks_declare limit d before

theorem tracks_conjoinField {path owner field : String} {r : Requirement} {l : Ledger} (before : l.Tracks) :
    (l.conjoinField limit path owner field r).Tracks :=
  tracks_update before

theorem tracks_inheritFromType (roots : RootTypes) (typeName : String) (entry : TypeEntry) {l : Ledger}
    (before : l.Tracks) : (l.inheritFromType limit roots typeName entry).Tracks := by
  unfold inheritFromType
  split
  · exact before
  · split
    · exact before
    · exact before
    · exact List.foldlRecOn _ _ (tracks_update before) fun _ before _ _ =>
        tracks_conjoinField limit before

theorem tracks_inheritFields (fields : List (String × Requirement)) (name : String) {l : Ledger} (before : l.Tracks) :
    (inheritFields limit fields l name).Tracks :=
  List.foldlRecOn fields _ (tracks_update before) fun _ before _ _ =>
    tracks_conjoinField limit before

theorem tracks_inheritFromInterface (concrete : ConcreteTypes) (interfaceName : String) {l : Ledger}
    (before : l.Tracks) : (l.inheritFromInterface limit concrete interfaceName).Tracks := by
  unfold inheritFromInterface
  split
  · exact before
  · exact List.foldlRecOn _ _ before fun _ before name _ => tracks_inheritFields limit _ name before

theorem tracks_inheritFromLeaf (heir : Heir) {l : Ledger} (before : l.Tracks) :
    (l.inheritFromLeaf limit heir).Tracks := by
  unfold inheritFromLeaf
  split
  · split
    · exact before
    · exact tracks_conjoinField limit before
  · exact before

/-! ## From types -/

/-- The entries that a registered type makes. -/
def typeEntries (roots : RootTypes) (e : String × TypeEntry) : List Entry :=
  match e.2.composite?, typeLevel limit e.2.directives with
  | none, _ | some _, .nothing => []
  | some _, .overLimit => [⟨e.1, .refuse⟩]
  | some c, .requirement r =>
    ⟨roots.canonicalName e.1, .cover r.demand⟩ ::
      c.fields.keys.map fun field => ⟨roots.canonicalName e.1, .join field r.demand⟩

theorem accounts?_inheritFromType (roots : RootTypes) (e : String × TypeEntry) (l : Ledger) :
    (l.inheritFromType limit roots e.1 e.2).accounts? =
      (typeEntries limit roots e).foldl (Entry.post limit) l.accounts? := by
  unfold inheritFromType typeEntries
  cases e.2.composite? with
  | none => rfl
  | some c =>
    cases typeLevel limit e.2.directives with
    | nothing => rfl
    | overLimit => exact accounts?_refuse limit e.1 e.1 l
    | requirement r =>
      refine
        (accounts?_conjoinFields limit _ (fun _ => roots.canonicalName e.1) id (fun _ => r) c.fields.keys _).trans ?_
      rw [List.foldl_cons, ← accounts?_update limit (roots.canonicalName e.1)
        (fun record => { record with coversFields := true, requirement := r }) (.cover r.demand) l
        { l with records := l.records.update (roots.canonicalName e.1) fun record =>
          { record with coversFields := true, requirement := r } } rfl rfl rfl]
      rfl

theorem accounts?_afterTypes (roots : RootTypes) (types : Registry) (l : Ledger) :
    (l.afterTypes limit roots types).accounts? =
      (types.toList.flatMap (typeEntries limit roots)).foldl (Entry.post limit) l.accounts? :=
  accounts?_foldl limit _ (typeEntries limit roots) (fun _ => True) types.toList
    (fun l e _ _ => ⟨trivial, accounts?_inheritFromType limit roots e l⟩) l trivial

theorem mem_typeEntries {roots : RootTypes} {x : String × TypeEntry} {e : Entry}
    (member : e ∈ typeEntries limit roots x) :
    e.change = .refuse ∨ (∃ field d, e.change = .join field d) ∨
      ∃ r, typeLevel limit x.2.directives = .requirement r ∧ e = ⟨roots.canonicalName x.1, .cover r.demand⟩ := by
  unfold typeEntries at member
  split at member
  · exact absurd member List.not_mem_nil
  · exact absurd member List.not_mem_nil
  · exact Or.inl (congrArg Entry.change (List.mem_singleton.mp member))
  · next r _ level =>
    rcases List.mem_cons.mp member with covers | joins
    · exact Or.inr (Or.inr ⟨r, level, covers⟩)
    · obtain ⟨field, -, rfl⟩ := List.mem_map.mp joins
      exact Or.inr (Or.inl ⟨field, r.demand, rfl⟩)

/-- Only the entry of a type itself covers its account. -/
theorem exchanges_typeEntries {roots : RootTypes} {types : Registry}
    (injective : ∀ typeName ∈ types.keys, ∀ other ∈ types.keys,
      roots.canonicalName typeName = roots.canonicalName other → typeName = other) :
    ∀ e ∈ types.toList.flatMap (typeEntries limit roots), ∀ e' ∈ types.toList.flatMap (typeEntries limit roots),
      e.Exchanges e' := by
  intro e member e' member' same
  obtain ⟨⟨typeName, entry⟩, listed, made⟩ := List.mem_flatMap.mp member
  obtain ⟨⟨other, entry'⟩, listed', made'⟩ := List.mem_flatMap.mp member'
  rw [Table.mem_toList] at listed listed'
  rcases mem_typeEntries limit made with refuses | ⟨_, _, joins⟩ | ⟨r, level, rfl⟩ <;>
    rcases mem_typeEntries limit made' with refuses' | ⟨_, _, joins'⟩ | ⟨r', level', rfl⟩
  case inr.inr.inr.inr =>
    obtain rfl := injective _ (Table.mem_keys_of_get? listed) _ (Table.mem_keys_of_get? listed') same
    obtain rfl := Option.some.inj (listed.symm.trans listed')
    obtain rfl := Declared.requirement.inj (level.symm.trans level')
    rfl
  all_goals simp_all [Change.Exchanges]

/-! ## From interfaces -/

/-- The entries that an interface makes, as records have it. -/
def interfaceEntries (concrete : ConcreteTypes) (records : Records) (interfaceName : String) : List Entry :=
  match Table.get? records interfaceName with
  | none => []
  | some record =>
    (concrete.of interfaceName).toList.flatMap fun name =>
      ⟨name, .touch⟩ :: record.fields.toList.map fun e => ⟨name, .join e.1 e.2.demand⟩

theorem accounts?_inheritFields (fields : List (String × Requirement)) (name : String) (l : Ledger) :
    (inheritFields limit fields l name).accounts? =
      ((⟨name, .touch⟩ : Entry) :: fields.map fun e => ⟨name, .join e.1 e.2.demand⟩).foldl (Entry.post limit)
        l.accounts? := by
  rw [List.foldl_cons, ← accounts?_update limit name id .touch l
    { l with records := l.records.update name id } rfl rfl rfl]
  exact accounts?_conjoinFields limit _ (fun _ => name) Prod.fst Prod.snd fields _

theorem accounts?_inheritFromInterface (concrete : ConcreteTypes) (interfaceName : String) (l : Ledger) :
    (l.inheritFromInterface limit concrete interfaceName).accounts? =
      (interfaceEntries concrete l.records interfaceName).foldl (Entry.post limit) l.accounts? := by
  unfold inheritFromInterface interfaceEntries
  cases l.records.get? interfaceName with
  | none => rfl
  | some record =>
    exact accounts?_foldl limit (inheritFields limit record.fields.toList) _ (fun _ => True) _
      (fun l name _ _ => ⟨trivial, accounts?_inheritFields limit record.fields.toList name l⟩) l trivial

theorem accounts?_afterInterfaces {types : Registry} {concrete : ConcreteTypes}
    (abstract : ∀ i ∈ coveringInterfaces limit types, ∀ j ∈ coveringInterfaces limit types,
      j ∉ (concrete.of i).toList) (l : Ledger) :
    (l.afterInterfaces limit types concrete).accounts? =
      ((coveringInterfaces limit types).flatMap (interfaceEntries concrete l.records)).foldl (Entry.post limit)
        l.accounts? := by
  -- Invariant: the interfaces that are gone through have the records from before the pass.
  refine accounts?_foldl limit (inheritFromInterface limit concrete) (interfaceEntries concrete l.records)
    (fun l' => ∀ j ∈ coveringInterfaces limit types, l'.records.get? j = l.records.get? j) _ ?_ l fun _ _ => rfl
  intro l' i hi kept
  constructor
  · intro j hj
    rw [get?_inheritFromInterface_of_not_mem limit concrete l' i j (abstract i hi j hj), kept j hj]
  · rw [accounts?_inheritFromInterface, interfaceEntries, kept i hi, interfaceEntries]

/-- Records with the same accounts make the same entries, in another order. -/
theorem interfaceEntries_perm {concrete concrete' : ConcreteTypes} {records records' : Records}
    (accounts : records'.accounts = records.accounts) {interfaceName : String}
    (members : (concrete'.of interfaceName).SameMembers (concrete.of interfaceName)) :
    (interfaceEntries concrete' records' interfaceName).Perm (interfaceEntries concrete records interfaceName) := by
  have account := congrFun accounts interfaceName
  unfold Records.accounts at account
  unfold interfaceEntries
  cases found : Table.get? records interfaceName with
  | none =>
    rw [found, Option.map_none, Option.map_eq_none_iff] at account
    rw [account]
  | some record =>
    rw [found, Option.map_some, Option.map_eq_some_iff] at account
    obtain ⟨record', found', account⟩ := account
    rw [found']
    have demanded : (record'.fields.map fun _ => Requirement.demand).get? =
        (record.fields.map fun _ => Requirement.demand).get? := by
      funext name
      rw [Table.get?_map, Table.get?_map]
      exact congrFun (congrArg Account.fields account) name
    have listed := Table.perm_of_get? demanded
    refine List.Perm.flatMap members fun name _ => .cons _ ?_
    have joins := listed.map fun e => (⟨name, .join e.1 e.2⟩ : Entry)
    simpa only [Table.map, List.map_map, Function.comp_def] using joins

theorem exchanges_interfaceEntries {concrete : ConcreteTypes} {records : Records} {i i' : String} :
    ∀ e ∈ interfaceEntries concrete records i, ∀ e' ∈ interfaceEntries concrete records i', e.Exchanges e' := by
  have kinds : ∀ i, ∀ e ∈ interfaceEntries concrete records i,
      e.change = .touch ∨ ∃ field d, e.change = .join field d := by
    intro i e member
    unfold interfaceEntries at member
    split at member
    · exact absurd member List.not_mem_nil
    · obtain ⟨name, -, made⟩ := List.mem_flatMap.mp member
      rcases List.mem_cons.mp made with rfl | joins
      · exact Or.inl rfl
      · obtain ⟨field, -, rfl⟩ := List.mem_map.mp joins
        exact Or.inr ⟨_, _, rfl⟩
  intro e member e' member' _
  rcases kinds i e member with touches | ⟨_, _, joins⟩ <;>
    rcases kinds i' e' member' with touches' | ⟨_, _, joins'⟩ <;> simp_all [Change.Exchanges]

/-! ## From leaf types -/

/-- The entry that an heir makes, if its type is a leaf type with a requirement. -/
def leafEntries (leafTypes : NameSet) (records : Records) (heir : Heir) : List Entry :=
  if leafTypes.contains heir.namedType then
    [⟨heir.canonicalParent, .join heir.field (records.typeAt heir.namedType).demand⟩]
  else []

theorem accounts?_inheritFromLeaf (heir : Heir) {l : Ledger} (tracks : l.Tracks) :
    (l.inheritFromLeaf limit heir).accounts? =
      (leafEntries l.leafTypes l.records heir).foldl (Entry.post limit) l.accounts? := by
  unfold inheritFromLeaf leafEntries
  split
  · next leaf =>
    obtain ⟨record, found⟩ := Table.exists_get?_of_mem_keys (tracks _ (OrderedSet.contains_iff.mp leaf))
    have required : l.records.typeAt heir.namedType = record.requirement := by
      simp [Records.typeAt, Records.of, Table.getD, found]
    rw [found, required]
    exact accounts?_conjoinField limit _ _ _ _ l
  · rfl

theorem accounts?_heirs (heirs : List Heir) {l : Ledger} (tracks : l.Tracks) :
    (heirs.foldl (inheritFromLeaf limit) l).accounts? =
      (heirs.flatMap (leafEntries l.leafTypes l.records)).foldl (Entry.post limit) l.accounts? := by
  -- Invariant: neither the leaf types nor what they require change on the way.
  refine accounts?_foldl limit (inheritFromLeaf limit) (leafEntries l.leafTypes l.records)
    (fun l' => SameTypes l l' ∧ l'.Tracks) heirs ?_ l ⟨.refl l, tracks⟩
  rintro l' heir - ⟨kept, tracks⟩
  refine ⟨⟨kept.trans (sameTypes_inheritFromLeaf limit l' heir), tracks_inheritFromLeaf limit heir tracks⟩, ?_⟩
  rw [accounts?_inheritFromLeaf limit heir tracks, leafEntries, kept.leafTypes, kept.typeAt, leafEntries]

/-! ## All three passes -/

/-- Two ledgers with the same accounts, leaf types and heirs. -/
structure SameUpToOrder (l l' : Ledger) : Prop where
  accounts : l'.accounts? = l.accounts?
  leafTypes : l'.leafTypes.SameMembers l.leafTypes
  heirs : l'.heirs.Perm l.heirs
  tracks : l.Tracks
  tracks' : l'.Tracks

namespace SameUpToOrder

variable {limit} {l l' : Ledger} {types types' : Registry} {concrete concrete' : ConcreteTypes}

theorem records (same : l.SameUpToOrder l') : l.accounts? = none ∨ l'.records.accounts = l.records.accounts := by
  have accounts := same.accounts
  unfold accounts? at accounts ⊢
  split at accounts <;> split at accounts
  · exact Or.inr (Option.some.inj accounts)
  · exact absurd accounts (Option.some_ne_none _)
  · exact absurd accounts.symm (Option.some_ne_none _)
  · next exceeded => exact Or.inl (if_neg exceeded)

theorem afterTypes (same : l.SameUpToOrder l') {roots : RootTypes} (listed : types'.toList.Perm types.toList)
    (injective : ∀ typeName ∈ types.keys, ∀ other ∈ types.keys,
      roots.canonicalName typeName = roots.canonicalName other → typeName = other) :
    (l.afterTypes limit roots types).SameUpToOrder (l'.afterTypes limit roots types') where
  accounts := by
    rw [accounts?_afterTypes, accounts?_afterTypes, same.accounts]
    exact (Entry.foldl_post_perm limit (listed.symm.flatMap_right _) (exchanges_typeEntries limit injective) _).symm
  leafTypes := by
    rw [(leafTypes_afterTypes limit roots types l).1, (leafTypes_afterTypes limit roots types' l').1]
    exact same.leafTypes
  heirs := by
    rw [(leafTypes_afterTypes limit roots types l).2, (leafTypes_afterTypes limit roots types' l').2]
    exact same.heirs
  tracks := List.foldlRecOn _ _ same.tracks fun _ before e _ => tracks_inheritFromType limit roots e.1 e.2 before
  tracks' := List.foldlRecOn _ _ same.tracks' fun _ before e _ => tracks_inheritFromType limit roots e.1 e.2 before

theorem afterInterfaces (same : l.SameUpToOrder l') (listed : types'.toList.Perm types.toList)
    (members : ∀ i, (concrete'.of i).SameMembers (concrete.of i))
    (abstract : ∀ i ∈ coveringInterfaces limit types, ∀ j ∈ coveringInterfaces limit types,
      j ∉ (concrete.of i).toList) :
    (l.afterInterfaces limit types concrete).SameUpToOrder (l'.afterInterfaces limit types' concrete') where
  accounts := by
    have covering : (coveringInterfaces limit types').Perm (coveringInterfaces limit types) := listed.filterMap _
    have abstract' : ∀ i ∈ coveringInterfaces limit types', ∀ j ∈ coveringInterfaces limit types',
        j ∉ (concrete'.of i).toList := fun i hi j hj member =>
      abstract i (covering.mem_iff.mp hi) j (covering.mem_iff.mp hj) ((members i).mem_iff.mp member)
    rw [accounts?_afterInterfaces limit abstract, accounts?_afterInterfaces limit abstract', same.accounts]
    -- Records that were refused before stay so, whatever is posted.
    rcases same.records with refused | records
    · rw [refused, Entry.foldl_post_none, Entry.foldl_post_none]
    · have entries := covering.flatMap fun i _ => interfaceEntries_perm records (members i)
      refine (Entry.foldl_post_perm limit entries.symm (fun e member e' member' => ?_) _).symm
      obtain ⟨i, -, made⟩ := List.mem_flatMap.mp member
      obtain ⟨i', -, made'⟩ := List.mem_flatMap.mp member'
      exact exchanges_interfaceEntries e made e' made'
  leafTypes := by
    rw [(sameTypes_afterInterfaces limit types concrete l).leafTypes,
      (sameTypes_afterInterfaces limit types' concrete' l').leafTypes]
    exact same.leafTypes
  heirs := by
    rw [(sameTypes_afterInterfaces limit types concrete l).heirs,
      (sameTypes_afterInterfaces limit types' concrete' l').heirs]
    exact same.heirs
  tracks := List.foldlRecOn _ _ same.tracks fun _ before i _ => tracks_inheritFromInterface limit concrete i before
  tracks' := List.foldlRecOn _ _ same.tracks' fun _ before i _ => tracks_inheritFromInterface limit concrete' i before

theorem inheritFromLeaves (same : l.SameUpToOrder l') :
    (l'.heirs.foldl (inheritFromLeaf limit) l').accounts? = (l.heirs.foldl (inheritFromLeaf limit) l).accounts? := by
  rw [accounts?_heirs limit l.heirs same.tracks, accounts?_heirs limit l'.heirs same.tracks', same.accounts]
  rcases same.records with refused | records
  · rw [refused, Entry.foldl_post_none, Entry.foldl_post_none]
  · have required (typeName : String) : (l'.records.typeAt typeName).demand = (l.records.typeAt typeName).demand := by
      have account := congrArg (·.getD .empty) (congrFun records typeName)
      simp only [Records.accounts_of] at account
      exact congrArg Account.requirement account
    have entries : leafEntries l'.leafTypes l'.records = leafEntries l.leafTypes l.records := by
      funext heir
      rw [leafEntries, same.leafTypes.contains, required, leafEntries]
    rw [entries]
    refine (Entry.foldl_post_perm limit (same.heirs.symm.flatMap_right _) (fun e member e' member' _ => ?_) _).symm
    have joins : ∀ e ∈ l.heirs.flatMap (leafEntries l.leafTypes l.records), ∃ field d, e.change = .join field d := by
      intro e member
      obtain ⟨heir, -, made⟩ := List.mem_flatMap.mp member
      unfold leafEntries at made
      split at made
      · rw [List.mem_singleton] at made
        exact ⟨_, _, congrArg Entry.change made⟩
      · exact absurd made List.not_mem_nil
    obtain ⟨_, _, first⟩ := joins e member
    obtain ⟨_, _, second⟩ := joins e' member'
    rw [first, second]
    trivial

/-- Inheritance keeps the agreement, whatever the order of types and of concrete types. -/
theorem consolidate (same : l.SameUpToOrder l') {roots : RootTypes} (listed : types'.toList.Perm types.toList)
    (members : ∀ i, (concrete'.of i).SameMembers (concrete.of i))
    (injective : ∀ typeName ∈ types.keys, ∀ other ∈ types.keys,
      roots.canonicalName typeName = roots.canonicalName other → typeName = other)
    (abstract : ∀ i ∈ coveringInterfaces limit types, ∀ j ∈ coveringInterfaces limit types,
      j ∉ (concrete.of i).toList) :
    (l'.consolidate limit roots types' concrete').accounts? = (l.consolidate limit roots types concrete).accounts? :=
  ((same.afterTypes listed injective).afterInterfaces listed members abstract).inheritFromLeaves

end SameUpToOrder

end Federation.Authorization.Ledger
